import Rucbase.Lib.Bytes
import Rucbase.Lib.Handles
import Rucbase.Lib.Places
import Rucbase.Lib.Runs

/-!
# The sockets of clients

A `Client` (`src/net/client.h`, `client.cpp`) owns one socket, or none. `Connect` closes the one it
has, tries the addresses of an endpoint one after the other until a deadline, and keeps the first
socket that is connected, configured and greeted; `Execute` closes it when the connection cannot be
used any further; a client can be moved and is closed at the end of its life. While a connection is
being made, its socket is in the hands of a local `UniqueFd`, which closes it on every way out.

The operating system gives out the number of a closed descriptor again, to a client or to another
part of the process. So it matters that no descriptor is closed twice: the second call would close
what another has opened. What the system calls return is part of each operation, and a run is any
sequence of operations on any number of clients, with others opening and closing descriptors of
their own in between. The operations on one client hold its mutex, so each of them is one step.
-/

namespace Rucbase.Wire

open Lib

/-! ## Statuses -/

/-- `ClientError`. -/
inductive ClientError where
  | none
  | invalidEndpoint
  | resolveFailed
  | connectFailed
  | connectTimeout
  | configureFailed
  | handshakeFailed
  deriving DecidableEq, Repr

/-- `ClientStatus`. -/
structure ClientStatus where
  code : ClientError := .none
  message : Bytes := []
  deriving DecidableEq, Repr

namespace ClientStatus

/-- `ok`. -/
def ok (status : ClientStatus) : Bool := status.code == .none

/-- `Error`. -/
def error (code : ClientError) (message : Bytes) : ClientStatus := ⟨code, message⟩

/-- `Error(ClientError::ConnectFailed, ErrnoMessage(what, errno))`, with the text of `errno`. -/
def connectFailed (what errno : Bytes) : ClientStatus :=
  error .connectFailed (what ++ text ": " ++ errno)

end ClientStatus

/-! ## Connecting a socket -/

/-- What a round of the loop in `ConnectAddress` meets behind its reading of the clock. -/
inductive PollResult where
  | interrupted
  | timedOut
  | failed (errno : Bytes)
  /-- `getsockopt` fails. -/
  | statusFailed (errno : Bytes)
  /-- `socket_error` is not 0. -/
  | refused (errno : Bytes)
  | connected
  deriving DecidableEq, Repr

/-- A round of the loop: the time in nanoseconds, and what comes behind it. -/
structure PollRound where
  now : ℤ
  result : PollResult
  deriving DecidableEq, Repr

/-- A call of `poll`: the time before it, and its timeout in milliseconds. -/
structure PollCall where
  now : ℤ
  timeoutMs : ℤ
  deriving DecidableEq, Repr

/-- `connect timed out`. -/
def connectTimedOut : ClientStatus := .error .connectTimeout (text "connect timed out")

/-- `timeout_ms` in `ConnectAddress`. -/
def pollTimeoutMs (deadline now : ℤ) : ℤ := max 1 ((deadline - now).tdiv 1000000)

/-- The loop of `ConnectAddress`, with the calls of `poll` that it makes. Behind the last round the
deadline has passed. -/
def awaitConnect (deadline : ℤ) : List PollRound → ClientStatus × List PollCall
  | [] => (connectTimedOut, [])
  | round :: rounds =>
    if deadline ≤ round.now then (connectTimedOut, [])
    else
      let call : PollCall := ⟨round.now, pollTimeoutMs deadline round.now⟩
      match round.result with
      | .interrupted =>
        let (status, calls) := awaitConnect deadline rounds
        (status, call :: calls)
      | .timedOut => (connectTimedOut, [call])
      | .failed errno => (.connectFailed (text "connect poll failed") errno, [call])
      | .statusFailed errno => (.connectFailed (text "connect status failed") errno, [call])
      | .refused errno => (.connectFailed (text "connect failed") errno, [call])
      | .connected => ({}, [call])

/-- What `connect` on a nonblocking socket returns. -/
inductive ConnectResult where
  | connected
  | inProgress
  | failed (errno : Bytes)
  deriving DecidableEq, Repr

/-- What the system calls of `ConnectAddress` return; `none` is success, and a text that of
`errno`. -/
structure AddressCalls where
  socket : Except Bytes ℕ
  readFlags : Option Bytes
  setNonblocking : Option Bytes
  connect : ConnectResult
  rounds : List PollRound
  restoreFlags : Option Bytes

/-- A system call of `ConnectAddress` that is followed by a return if it fails. -/
def checked (what : Bytes) (result : Option Bytes) (next : ClientStatus × List PollCall) :
    ClientStatus × List PollCall :=
  match result with
  | some errno => (.connectFailed what errno, [])
  | none => next

/-- `ConnectAddress` between the creation of the socket and the end. -/
def connectCandidate (deadline : ℤ) (calls : AddressCalls) : ClientStatus × List PollCall :=
  let restored : ClientStatus :=
    (checked (text "failed to restore socket flags") calls.restoreFlags ({}, [])).1
  checked (text "failed to read socket flags") calls.readFlags <|
  checked (text "failed to configure nonblocking connect") calls.setNonblocking <|
  match calls.connect with
  | .failed errno => (.connectFailed (text "connect failed") errno, [])
  | .connected => (restored, [])
  | .inProgress =>
    let (status, polls) := awaitConnect deadline calls.rounds
    if status.ok then (restored, polls) else (status, polls)

/-- The destructor of a `UniqueFd`, and `Reset` before it takes another descriptor. -/
def closeFd (descriptors : Handles ℕ) : Option ℕ → Handles ℕ
  | none => descriptors
  | some fd => descriptors.release fd

/-- What `ConnectAddress` and its callers return, with what they leave in `connected`. There is no
result when `socket` returns a descriptor that is in use, which it never does. -/
abbrev Connecting := Option (ClientStatus × Option ℕ × Handles ℕ)

/-- `ConnectAddress`. -/
def connectAddress (descriptors : Handles ℕ) (deadline : ℤ) (calls : AddressCalls)
    (connected : Option ℕ) : Connecting :=
  match calls.socket with
  | .error errno =>
    some (.connectFailed (text "socket creation failed") errno, connected, descriptors)
  | .ok fd =>
    if descriptors.table fd ≠ none then none
    else
      let status := (connectCandidate deadline calls).1
      let descriptors := (descriptors.acquire fd).touch fd
      if status.ok then
        -- `*connected = std::move(candidate)`.
        some (status, some fd, closeFd descriptors connected)
      else some (status, connected, closeFd descriptors (some fd))

/-- The loop of `ConnectTcpSocket` over the addresses. -/
def connectAddresses (deadline : ℤ) :
    List AddressCalls → ClientStatus → Option ℕ → Handles ℕ → Connecting
  | [], lastError, connected, descriptors => some (lastError, connected, descriptors)
  | address :: addresses, _, connected, descriptors =>
    match connectAddress descriptors deadline address connected with
    | none => none
    | some (status, connected, descriptors) =>
      if status.ok || status.code == .connectTimeout then some (status, connected, descriptors)
      else connectAddresses deadline addresses status connected descriptors

/-! ## Clients -/

/-- `EndpointKind`. -/
inductive EndpointKind where
  | tcp
  | unix
  deriving DecidableEq, Repr

/-- `Endpoint`. -/
structure Endpoint where
  kind : EndpointKind := .tcp
  host : Bytes := text "127.0.0.1"
  port : ℕ := 8765
  path : Bytes := []
  deriving DecidableEq, Repr

/-- `kDefaultIoTimeoutMs`. -/
def kDefaultIoTimeoutMs : ℕ := 120 * 1000

/-- `ClientOptions`. -/
structure ClientOptions where
  connectTimeoutMs : ℕ := 5000
  ioTimeoutMs : ℕ := kDefaultIoTimeoutMs
  deriving DecidableEq, Repr

/-- What the calls in `Connect` return: the time at which the deadline is set, the addresses of a
host or the one of a path, and whether the socket can be configured and the handshake succeeds. -/
structure ConnectCalls where
  start : ℤ
  resolve : Except Bytes (List AddressCalls)
  address : AddressCalls
  configured : Bool
  /-- The text of `errno` when the socket was not configured. -/
  errno : Bytes
  handshake : Bool

/-- The deadline of `Connect`. -/
def deadlineOf (options : ClientOptions) (calls : ConnectCalls) : ℤ :=
  calls.start + options.connectTimeoutMs * 1000000

/-- `ConnectTcpSocket`. -/
def connectTcpSocket (descriptors : Handles ℕ) (endpoint : Endpoint) (options : ClientOptions)
    (calls : ConnectCalls) (connected : Option ℕ) : Connecting :=
  if endpoint.host = [] ∨ endpoint.port = 0 then
    some (.error .invalidEndpoint (text "TCP host and port must be non-empty"), connected,
      descriptors)
  else match calls.resolve with
    | .error what =>
      some (.error .resolveFailed (text "failed to resolve " ++ endpoint.host ++ text ":" ++
        text (toString endpoint.port) ++ text ": " ++ what), connected, descriptors)
    | .ok addresses =>
      connectAddresses (deadlineOf options calls) addresses
        (.error .connectFailed (text "no usable address")) connected descriptors

/-- The size of `sun_path`. -/
def sunPathSize : ℕ := 108

/-- `ConnectUnixSocket`. -/
def connectUnixSocket (descriptors : Handles ℕ) (endpoint : Endpoint) (options : ClientOptions)
    (calls : ConnectCalls) (connected : Option ℕ) : Connecting :=
  if endpoint.path = [] then
    some (.error .invalidEndpoint (text "Unix socket path must be non-empty"), connected,
      descriptors)
  else if sunPathSize ≤ endpoint.path.length then
    some (.error .invalidEndpoint (text "Unix socket path is too long"), connected, descriptors)
  else connectAddress descriptors (deadlineOf options calls) calls.address connected

/-- `Client`: `impl_`, which is null in a client that was moved from, and in it `fd`, which is
negative without a connection. -/
structure ClientObject where
  impl : Option (Option ℕ) := some none
  deriving DecidableEq, Repr

namespace ClientObject

/-- The descriptor of a client. -/
def fd (client : ClientObject) : Option ℕ := client.impl.join

/-- `is_open`. -/
def isOpen (client : ClientObject) : Bool := client.fd.isSome

end ClientObject

/-- System calls on a descriptor that leave it open. -/
def touchFd (descriptors : Handles ℕ) : Option ℕ → Handles ℕ
  | none => descriptors
  | some fd => descriptors.touch fd

/-- `shutdown` and `close` of the descriptor of a client, if it has one. -/
def shutdownAndClose (descriptors : Handles ℕ) (fd : Option ℕ) : Handles ℕ :=
  closeFd (touchFd descriptors fd) fd

/-- The options that `Connect` refuses. -/
def ClientOptions.OutOfRange (options : ClientOptions) : Prop :=
  options.connectTimeoutMs = 0 ∨ 2^31 - 1 < options.connectTimeoutMs ∨ options.ioTimeoutMs = 0

instance (options : ClientOptions) : Decidable options.OutOfRange :=
  inferInstanceAs (Decidable (_ ∨ _))

/-- `Connect` up to the status of the connection. -/
def connectEndpoint (descriptors : Handles ℕ) (endpoint : Endpoint) (options : ClientOptions)
    (calls : ConnectCalls) : Connecting :=
  match endpoint.kind with
  | .tcp => connectTcpSocket descriptors endpoint options calls none
  | .unix => connectUnixSocket descriptors endpoint options calls none

/-- `Connect` behind it: on every way out but the last the destructor of `connected` runs. -/
def finishConnect (calls : ConnectCalls) (status : ClientStatus) (connected : Option ℕ)
    (descriptors : Handles ℕ) : ClientStatus × ClientObject × Handles ℕ :=
  if status.ok = false then (status, { impl := some none }, closeFd descriptors connected)
  else
    let descriptors := touchFd descriptors connected
    if connected = none ∨ calls.configured = false then
      (.error .configureFailed
          (text "failed to configure connected socket" ++ text ": " ++ calls.errno),
        { impl := some none }, closeFd descriptors connected)
    else if calls.handshake = false then
      (.error .handshakeFailed
          (text "wire handshake failed; server must speak RMDB wire protocol v3.1"),
        { impl := some none }, closeFd descriptors connected)
    else ({}, { impl := some connected }, descriptors)

/-- `Connect`. -/
def ClientObject.connect (descriptors : Handles ℕ) (client : ClientObject) (endpoint : Endpoint)
    (options : ClientOptions) (calls : ConnectCalls) :
    Option (ClientStatus × ClientObject × Handles ℕ) :=
  if options.OutOfRange then
    some (.error .invalidEndpoint (text "connect and I/O timeouts are out of range"), client,
      descriptors)
  else do
    let descriptors := shutdownAndClose descriptors client.fd
    let (status, connected, descriptors) ← connectEndpoint descriptors endpoint options calls
    pure (finishConnect calls status connected descriptors)

/-! ## Runs -/

/-- The clients of a process in the order of their construction, and its descriptors. A place is
empty when its client was destroyed. -/
structure Clients where
  descriptors : Handles ℕ
  objects : List (Option ClientObject) := []

/-- An operation on clients, or on descriptors that others own. -/
inductive ClientStep where
  /-- `Client()`. -/
  | construct
  | connect (this : ℕ) (endpoint : Endpoint) (options : ClientOptions) (calls : ConnectCalls)
  /-- `Execute`, where `connection_reusable` of the result is this. -/
  | execute (this : ℕ) (reusable : Bool)
  | close (this : ℕ)
  /-- `Client(Client&&)`. -/
  | moveConstruct (other : ℕ)
  /-- `operator=(Client&&)`. -/
  | moveAssign (this other : ℕ)
  /-- `~Client()`. -/
  | destroy (this : ℕ)
  | othersOpen (fd : ℕ)
  | othersClose (fd : ℕ)

namespace Clients

/-- The client of an object that is alive. -/
def clientOf (state : Clients) (this : ℕ) : Option ClientObject := state.objects[this]?.join

/-- Another value of a client, and of the descriptors. -/
def put (state : Clients) (this : ℕ) (object : Option ClientObject) (descriptors : Handles ℕ) :
    Clients :=
  { descriptors := descriptors, objects := state.objects.set this object }

/-- One operation; there is none on a client that is not alive. -/
def step (state : Clients) : ClientStep → Option Clients
  | .construct => some { state with objects := state.objects ++ [some {}] }
  | .connect this endpoint options calls => do
    let client ← state.clientOf this
    let (_, client, descriptors) ← client.connect state.descriptors endpoint options calls
    pure (state.put this (some client) descriptors)
  | .execute this reusable => do
    let client ← state.clientOf this
    let descriptors := touchFd state.descriptors client.fd
    if reusable ∨ client.fd = none then pure (state.put this (some client) descriptors)
    else pure (state.put this (some { impl := some none })
      (shutdownAndClose descriptors client.fd))
  | .close this => do
    let client ← state.clientOf this
    if client.impl = none then pure state
    else pure (state.put this (some { impl := some none })
      (shutdownAndClose state.descriptors client.fd))
  | .moveConstruct other => do
    let moved ← state.clientOf other
    pure { state with objects := state.objects.set other (some { impl := none }) ++ [some moved] }
  | .moveAssign this other => do
    let client ← state.clientOf this
    let moved ← state.clientOf other
    if this = other then pure state
    else
      -- The other client gives its `Impl` away, and the one that was here is destroyed.
      let objects := state.objects.set other (some { impl := none })
      pure { descriptors := closeFd state.descriptors client.fd,
             objects := objects.set this (some moved) }
  | .destroy this => do
    let client ← state.clientOf this
    pure (state.put this none (shutdownAndClose state.descriptors client.fd))
  | .othersOpen fd =>
    if state.descriptors.table fd = none then
      some { state with descriptors := state.descriptors.setForeign fd (some .foreign) }
    else none
  | .othersClose fd =>
    if state.descriptors.table fd = some .foreign then
      some { state with descriptors := state.descriptors.setForeign fd none }
    else none

/-- One operation after another. -/
def run (state : Clients) (steps : List ClientStep) : Option Clients := steps.foldlM step state

end Clients

/-! ## The account of the descriptors -/

section Account

variable {descriptors descriptors' : Handles ℕ} {fd connected connected' : Option ℕ}
  {rest : List ℕ} {status : ClientStatus} {deadline : ℤ}

theorem owned_closeFd (h : descriptors.Owned (fd.toList ++ rest)) :
    (closeFd descriptors fd).Owned rest := by
  cases fd with
  | none => exact h
  | some fd => exact h.release

theorem owned_touchFd (h : descriptors.Owned (fd.toList ++ rest)) :
    (touchFd descriptors fd).Owned (fd.toList ++ rest) := by
  cases fd with
  | none => exact h
  | some fd => exact h.touch List.mem_cons_self

theorem owned_shutdownAndClose (h : descriptors.Owned (fd.toList ++ rest)) :
    (shutdownAndClose descriptors fd).Owned rest :=
  owned_closeFd (owned_touchFd h)

/-- The candidate is closed, or takes the place of what was connected. -/
theorem owned_connectAddress {calls : AddressCalls}
    (howned : descriptors.Owned (connected.toList ++ rest))
    (h : connectAddress descriptors deadline calls connected
      = some (status, connected', descriptors')) :
    descriptors'.Owned (connected'.toList ++ rest) := by
  unfold connectAddress at h
  split at h
  · cases h
    exact howned
  · rename_i fd _
    split at h
    · cases h
    · rename_i hused
      have hcandidate := (howned.acquire (not_not.mp hused)).touch List.mem_cons_self
      by_cases hok : (connectCandidate deadline calls).1.ok = true
      · -- `connected` is closed when it takes over the candidate.
        rw [if_pos hok] at h
        obtain ⟨-, rfl, rfl⟩ := by simpa only [Option.some.injEq, Prod.mk.injEq] using h
        exact owned_closeFd (hcandidate.perm List.perm_middle.symm)
      · rw [if_neg hok] at h
        obtain ⟨-, rfl, rfl⟩ := by simpa only [Option.some.injEq, Prod.mk.injEq] using h
        exact hcandidate.release

theorem owned_connectAddresses {addresses : List AddressCalls} {lastError : ClientStatus}
    (howned : descriptors.Owned (connected.toList ++ rest))
    (h : connectAddresses deadline addresses lastError connected descriptors
      = some (status, connected', descriptors')) :
    descriptors'.Owned (connected'.toList ++ rest) := by
  induction addresses generalizing lastError connected descriptors with
  | nil =>
    cases h
    exact howned
  | cons address addresses ih =>
    unfold connectAddresses at h
    split at h
    · cases h
    · rename_i hconnect
      have hnext := owned_connectAddress howned hconnect
      split_ifs at h
      · cases h
        exact hnext
      · exact ih hnext h

variable {calls : ConnectCalls} {endpoint : Endpoint} {options : ClientOptions}

theorem owned_connectTcpSocket (howned : descriptors.Owned (connected.toList ++ rest))
    (h : connectTcpSocket descriptors endpoint options calls connected
      = some (status, connected', descriptors')) :
    descriptors'.Owned (connected'.toList ++ rest) := by
  unfold connectTcpSocket at h
  split_ifs at h
  · cases h
    exact howned
  · split at h
    · cases h
      exact howned
    · exact owned_connectAddresses howned h

theorem owned_connectUnixSocket (howned : descriptors.Owned (connected.toList ++ rest))
    (h : connectUnixSocket descriptors endpoint options calls connected
      = some (status, connected', descriptors')) :
    descriptors'.Owned (connected'.toList ++ rest) := by
  unfold connectUnixSocket at h
  split_ifs at h
  · cases h
    exact howned
  · cases h
    exact howned
  · exact owned_connectAddress howned h

theorem owned_connectEndpoint (howned : descriptors.Owned rest)
    (h : connectEndpoint descriptors endpoint options calls
      = some (status, connected', descriptors')) :
    descriptors'.Owned (connected'.toList ++ rest) := by
  unfold connectEndpoint at h
  split at h
  · exact owned_connectTcpSocket howned h
  · exact owned_connectUnixSocket howned h

/-- The socket is closed, or it is the one of the client. -/
theorem owned_finishConnect (calls : ConnectCalls) (status : ClientStatus)
    (howned : descriptors.Owned (connected.toList ++ rest)) :
    (finishConnect calls status connected descriptors).2.2.Owned
      ((finishConnect calls status connected descriptors).2.1.fd.toList ++ rest) := by
  unfold finishConnect
  have htouched := owned_touchFd howned
  split_ifs
  · exact owned_closeFd howned
  · exact owned_closeFd htouched
  · exact owned_closeFd htouched
  · exact htouched

/-- `Connect` gives the client the socket that it leaves open, and no other one stays open. -/
theorem owned_connect {client client' : ClientObject}
    (howned : descriptors.Owned (client.fd.toList ++ rest))
    (h : client.connect descriptors endpoint options calls = some (status, client', descriptors')) :
    descriptors'.Owned (client'.fd.toList ++ rest) := by
  unfold ClientObject.connect at h
  split_ifs at h
  · cases h
    exact howned
  · obtain ⟨⟨status, connected, descriptors⟩, hendpoint, hfinish⟩ :=
      Option.bind_eq_some_iff.mp h
    have hconnected := owned_connectEndpoint (owned_shutdownAndClose howned) hendpoint
    have hfinished := owned_finishConnect calls status hconnected
    rw [Option.some.inj hfinish] at hfinished
    exact hfinished

end Account

namespace Clients

/-- The descriptor in a place. -/
def fdOf (object : Option ClientObject) : Option ℕ := object.bind ClientObject.fd

/-- The sockets that were not closed are those of the clients. -/
def Inv (state : Clients) : Prop := state.descriptors.Owned (held fdOf state.objects)

variable {state state' : Clients}

variable {client : ClientObject} {this other : ℕ}

theorem getElem?_of_clientOf (h : state.clientOf this = some client) :
    state.objects[this]? = some (some client) :=
  Option.join_eq_some_iff.mp h

/-- What is done to one client keeps the account if it does so next to any other sockets; `hand`
is what was taken out of another client before. -/
theorem owned_set (hand : List ℕ) {objects : List (Option ClientObject)}
    (hplace : objects[this]? = some (some client)) {object : Option ClientObject}
    {descriptors descriptors' : Handles ℕ}
    (howned : descriptors.Owned (hand ++ held fdOf objects))
    (h : ∀ rest, descriptors.Owned (client.fd.toList ++ (hand ++ rest)) →
      descriptors'.Owned ((fdOf object).toList ++ rest)) :
    descriptors'.Owned (held fdOf (objects.set this object)) := by
  have hempty : fdOf none = none := rfl
  have hbefore := howned.perm ((held_perm_set fdOf hplace hempty).append_left hand)
  have hafter := h _ (hbefore.perm (List.perm_append_comm_assoc ..))
  exact hafter.perm (held_set_perm fdOf hplace hempty object).symm

theorem Inv.put (hinv : state.Inv) (hclient : state.clientOf this = some client)
    {object : Option ClientObject} {descriptors : Handles ℕ}
    (h : ∀ rest, state.descriptors.Owned (client.fd.toList ++ rest) →
      descriptors.Owned ((fdOf object).toList ++ rest)) : (state.put this object descriptors).Inv :=
  owned_set [] (getElem?_of_clientOf hclient) hinv h

/-- A client that is moved from gives its socket away. -/
theorem Inv.take (hinv : state.Inv) {moved : ClientObject}
    (hmoved : state.clientOf other = some moved) :
    state.descriptors.Owned
      (moved.fd.toList ++ held fdOf (state.objects.set other (some { impl := none }))) :=
  hinv.perm (held_perm_set fdOf (getElem?_of_clientOf hmoved) rfl)

theorem Inv.moveConstruct (hinv : state.Inv) (h : state.step (.moveConstruct other) = some state') :
    state'.Inv := by
  obtain ⟨moved, hmoved, hnext⟩ := Option.bind_eq_some_iff.mp h
  cases hnext
  unfold Inv
  rw [held_append, held_singleton]
  exact (hinv.take hmoved).perm List.perm_append_comm

theorem Inv.moveAssign (hinv : state.Inv) (h : state.step (.moveAssign this other) = some state') :
    state'.Inv := by
  obtain ⟨client, hclient, hnext⟩ := Option.bind_eq_some_iff.mp h
  obtain ⟨moved, hmoved, hnext⟩ := Option.bind_eq_some_iff.mp hnext
  split_ifs at hnext with hself
  · cases hnext
    exact hinv
  · cases hnext
    have hplace :
        (state.objects.set other (some { impl := none }))[this]? = some (some client) := by
      rw [List.getElem?_set_ne (Ne.symm hself)]
      exact getElem?_of_clientOf hclient
    exact owned_set _ hplace (hinv.take hmoved) fun _ => owned_closeFd

/-- Every operation keeps the account. -/
theorem Inv.step {event : ClientStep} (hinv : state.Inv) (h : state.step event = some state') :
    state'.Inv := by
  cases event with
  | construct =>
    cases h
    unfold Inv
    rw [held_append, held_singleton]
    exact hinv.perm (by simp [fdOf, ClientObject.fd])
  | connect this endpoint options calls =>
    obtain ⟨client, hclient, hnext⟩ := Option.bind_eq_some_iff.mp h
    obtain ⟨⟨status, client', descriptors⟩, hconnect, hnext⟩ := Option.bind_eq_some_iff.mp hnext
    cases hnext
    exact hinv.put hclient fun _ howned => owned_connect howned hconnect
  | execute this reusable =>
    obtain ⟨client, hclient, hnext⟩ := Option.bind_eq_some_iff.mp h
    split_ifs at hnext
    · cases hnext
      exact hinv.put hclient fun _ => owned_touchFd
    · cases hnext
      exact hinv.put hclient fun _ howned => owned_shutdownAndClose (owned_touchFd howned)
  | close this =>
    obtain ⟨client, hclient, hnext⟩ := Option.bind_eq_some_iff.mp h
    split_ifs at hnext
    · cases hnext
      exact hinv
    · cases hnext
      exact hinv.put hclient fun _ => owned_shutdownAndClose
  | moveConstruct other => exact hinv.moveConstruct h
  | moveAssign this other => exact hinv.moveAssign h
  | destroy this =>
    obtain ⟨client, hclient, hnext⟩ := Option.bind_eq_some_iff.mp h
    cases hnext
    exact hinv.put hclient fun _ => owned_shutdownAndClose
  | othersOpen fd =>
    obtain ⟨hfree, hnext⟩ := Option.ite_none_right_eq_some.mp h
    cases hnext
    exact hinv.setForeign (by simp [hfree]) nofun
  | othersClose fd =>
    obtain ⟨hforeign, hnext⟩ := Option.ite_none_right_eq_some.mp h
    cases hnext
    exact hinv.setForeign (by simp [hforeign]) nofun

/-- The descriptor of a place is the one of its client. -/
theorem bind_fdOf (state : Clients) (this : ℕ) :
    (state.clientOf this).bind ClientObject.fd = state.objects[this]?.bind fdOf := by
  unfold clientOf
  rcases state.objects[this]? with _ | object
  · rfl
  · rfl

/-- In every run, whatever the system calls return, the descriptors that are closed or used are
sockets that a client has opened, none of them is closed twice, each socket that is still open is
with one client, the socket of a client has not been closed, and without clients all sockets are
closed. -/
theorem sockets_of_run (table : ℕ → Option Entry)
    (hforeign : ∀ fd serial, table fd ≠ some (.own serial)) (steps : List ClientStep)
    (hrun : run { descriptors := { table := table } } steps = some state) :
    (∀ entry ∈ state.descriptors.released ++ state.descriptors.touched,
      ∃ serial, entry = some (.own serial)) ∧
    state.descriptors.released.Nodup ∧
    (∀ fd serial, state.descriptors.table fd = some (.own serial) →
      ∃! this, (state.clientOf this).bind ClientObject.fd = some fd) ∧
    (∀ this fd, (state.clientOf this).bind ClientObject.fd = some fd →
      ∃ serial, state.descriptors.table fd = some (.own serial) ∧
        some (.own serial) ∉ state.descriptors.released) ∧
    ((∀ this, state.clientOf this = none) →
      ∀ serial < state.descriptors.acquired,
        some (.own serial) ∈ state.descriptors.released) := by
  have hinv : state.Inv := foldlM_invariant Inv.step hrun (Handles.owned_nil _ hforeign)
  simp only [bind_fdOf]
  refine ⟨?_, hinv.nodup_released, ?_, ?_, ?_⟩
  · intro entry hentry
    rcases List.mem_append.mp hentry with hentry | hentry
    · obtain ⟨serial, -, hown⟩ := hinv.exists_serial (List.mem_append_left _ hentry)
      exact ⟨serial, hown⟩
    · exact hinv.touched entry hentry
  · intro fd serial hown
    exact existsUnique_of_held hinv.nodup_owned (hinv.complete fd serial hown)
  · intro this fd hthis
    have hmem : fd ∈ held fdOf state.objects := mem_held_iff.mpr ⟨this, hthis⟩
    obtain ⟨serial, -, hown⟩ := hinv.table_of_mem hmem
    refine ⟨serial, hown, fun hclosed => ?_⟩
    exact (List.nodup_append.mp hinv.nodup).2.2 _ hclosed _ (List.mem_map_of_mem hmem) hown.symm
  · intro hnone serial hserial
    have hempty : held fdOf state.objects = [] := by
      refine List.eq_nil_iff_forall_not_mem.mpr fun fd hmem => ?_
      obtain ⟨this, hthis⟩ := mem_held_iff.mp hmem
      rw [← bind_fdOf, hnone this] at hthis
      cases hthis
    unfold Inv at hinv
    rw [hempty] at hinv
    exact hinv.mem_released hserial

/-- The first address refuses the connection and the second one accepts it; when the connection
breaks, another part of the process gets the descriptor, and the client, which was moved meanwhile,
connects again and is destroyed. -/
theorem sockets_of_run_reconnect :
    let address (fd : ℕ) (connect : ConnectResult) : AddressCalls :=
      { socket := .ok fd, readFlags := none, setNonblocking := none, connect := connect,
        rounds := [⟨1, .interrupted⟩, ⟨2, .connected⟩], restoreFlags := none }
    let calls (fd : ℕ) : ConnectCalls :=
      { start := 0, resolve := .ok [address fd (.failed []), address fd .inProgress],
        address := address fd .connected, configured := true, errno := [], handshake := true }
    let endpoint : Endpoint := { host := [49] }
    let steps : List ClientStep :=
      [.construct, .connect 0 endpoint {} (calls 3), .moveConstruct 0, .execute 1 false,
        .othersOpen 3, .connect 1 endpoint {} (calls 4), .destroy 0, .destroy 1]
    ∃ state, run { descriptors := { table := fun _ => none } } steps = some state ∧
      state.descriptors.acquired = 4 ∧
      (∀ serial < 4, some (.own serial) ∈ state.descriptors.released) ∧
      state.descriptors.table 3 = some .foreign := by
  intro address calls endpoint steps
  refine ⟨_, rfl, rfl, ?_, rfl⟩
  refine (sockets_of_run (fun _ => none) (fun _ _ => nofun) steps rfl).2.2.2.2 fun this => ?_
  match this with
  | 0 => rfl
  | 1 => rfl
  | _ + 2 => rfl

end Clients

/-! ## The waits of a connection -/

variable {deadline : ℤ}

/-- A round before the deadline asks for at least a millisecond, and for no more than is left. -/
theorem pollTimeoutMs_bounds {now : ℤ} (h : now < deadline) :
    1 ≤ pollTimeoutMs deadline now ∧
      now + pollTimeoutMs deadline now * 1000000 < deadline + 1000000 := by
  unfold pollTimeoutMs
  rw [Int.tdiv_eq_ediv_of_nonneg (by omega)]
  omega

theorem awaitConnect_polls {rounds : List PollRound} :
    ∀ call ∈ (awaitConnect deadline rounds).2, call.now < deadline ∧
      call.timeoutMs = pollTimeoutMs deadline call.now ∧
      ∃ round ∈ rounds, round.now = call.now := by
  induction rounds with
  | nil => simp [awaitConnect]
  | cons round rounds ih =>
    intro call hcall
    unfold awaitConnect at hcall
    split_ifs at hcall with hlate
    · simp at hcall
    · -- Every way through the round makes its own call first.
      have hcases : call = ⟨round.now, pollTimeoutMs deadline round.now⟩ ∨
          call ∈ (awaitConnect deadline rounds).2 := by
        split at hcall
        · exact List.mem_cons.mp hcall
        all_goals exact Or.inl (List.mem_singleton.mp hcall)
      rcases hcases with rfl | hrest
      · exact ⟨not_le.mp hlate, rfl, round, List.mem_cons_self, rfl⟩
      · obtain ⟨hnow, htimeout, other, hother, heq⟩ := ih call hrest
        exact ⟨hnow, htimeout, other, List.mem_cons_of_mem _ hother, heq⟩

theorem checked_polls {what : Bytes} {result : Option Bytes}
    {next : ClientStatus × List PollCall} {call : PollCall}
    (h : call ∈ (checked what result next).2) : call ∈ next.2 := by
  unfold checked at h
  split at h
  · simp at h
  · exact h

theorem connectCandidate_polls {calls : AddressCalls} {call : PollCall}
    (h : call ∈ (connectCandidate deadline calls).2) :
    call ∈ (awaitConnect deadline calls.rounds).2 := by
  have hconnect := checked_polls (checked_polls h)
  split at hconnect
  · simp at hconnect
  · simp at hconnect
  · dsimp only at hconnect
    split_ifs at hconnect
    · exact hconnect
    · exact hconnect

/-- Whenever `Connect` accepts its options, each `poll` for an address is made before the deadline,
with a timeout that is positive, that an `int` holds, and that ends less than a millisecond behind
the deadline. -/
theorem polls_within_deadline (options : ClientOptions) (hoptions : ¬options.OutOfRange)
    (calls : ConnectCalls) (address : AddressCalls)
    (hclock : ∀ round ∈ address.rounds, calls.start ≤ round.now) :
    ∀ call ∈ (connectCandidate (deadlineOf options calls) address).2,
      call.now < deadlineOf options calls ∧ 1 ≤ call.timeoutMs ∧
      call.timeoutMs ≤ options.connectTimeoutMs ∧ call.timeoutMs ≤ 2^31 - 1 ∧
      call.now + call.timeoutMs * 1000000 < deadlineOf options calls + 1000000 := by
  intro call hcall
  obtain ⟨hnow, htimeout, round, hround, heq⟩ :=
    awaitConnect_polls call (connectCandidate_polls hcall)
  obtain ⟨hpos, hend⟩ := pollTimeoutMs_bounds hnow
  have hstart : calls.start ≤ call.now := heq ▸ hclock round hround
  unfold ClientOptions.OutOfRange at hoptions
  have hdeadline : deadlineOf options calls = calls.start + options.connectTimeoutMs * 1000000 :=
    rfl
  rw [htimeout]
  refine ⟨hnow, hpos, ?_, ?_, hend⟩ <;> omega

/-- Half a millisecond before the deadline the timeout is still a whole one. -/
theorem polls_within_deadline_late :
    let address : AddressCalls :=
      { socket := .ok 3, readFlags := none, setNonblocking := none, connect := .inProgress,
        rounds := [⟨0, .interrupted⟩, ⟨4999500000, .timedOut⟩], restoreFlags := none }
    let calls : ConnectCalls :=
      { start := 0, resolve := .ok [address], address := address, configured := true,
        errno := [], handshake := true }
    (connectCandidate (deadlineOf {} calls) address).2 = [⟨0, 5000⟩, ⟨4999500000, 1⟩] ∧
      (4999500000 : ℤ) + 1 * 1000000 < deadlineOf {} calls + 1000000 := by
  intro address calls
  have hpolls : (connectCandidate (deadlineOf {} calls) address).2
      = [⟨0, 5000⟩, ⟨4999500000, 1⟩] := by decide
  refine ⟨hpolls, ?_⟩
  have hbounds := polls_within_deadline {} (by decide) calls address (by decide)
    ⟨4999500000, 1⟩ (by rw [hpolls]; decide)
  exact hbounds.2.2.2.2

end Rucbase.Wire
