import Mathlib.Data.List.Nodup
import Mathlib.Data.Nat.Notation
import Mathlib.Logic.Function.Basic
import Rucbase.Lib.Runs

/-!
# The connections of the server

`Server::serve` (`src/server/server.cpp`) accepts a connection, registers its descriptor in
`client_fds_` and starts a thread for it; the thread ends by `close_client`, which closes the
descriptor and erases it from `client_fds_`. Behind `serve`, the main thread runs `stop_clients`,
which shuts down what is registered. The operating system may give out the number of a descriptor
again as soon as it is closed, and `std::erase` removes by number.

A state is what the threads share, and how far each of them has got. A connection is in the hand of
one thread at a time: of the main thread until its own thread is started, and of that thread from
then on. So the threads' places in the code are the stages of the connections, and the place of the
main thread between them. An event is one step of one thread, as far as the steps differ in what
others can see of them; a run is any order of events.
-/

namespace Rucbase.Server

open Lib Function

/-- An accepted connection: how many were accepted before it, which no step reads, and its
descriptor. -/
structure Client where
  id : ℕ
  fd : ℕ
  deriving DecidableEq, Repr

/-- What a descriptor of the process is open on. -/
inductive File where
  | connection (client : Client)
  /-- A file of the database, the listening socket or a standard stream. -/
  | other
  deriving DecidableEq, Repr

/-- How far a call of `close_client` has got. -/
inductive Closing where
  /-- Before the lock. -/
  | waiting
  /-- Behind the lock, before `::close`. -/
  | locked
  /-- Behind `::close`, before `std::erase`. -/
  | closed
  /-- Behind `std::erase`, before the end of the lock. -/
  | erased
  deriving DecidableEq, Repr

/-- How far the thread that has a connection in hand has got with it. -/
inductive Stage where
  /-- Behind `accept`, before `ConfigureConnectedSocket`. -/
  | accepted
  /-- Before the lock of the registration. -/
  | configured
  /-- Behind that lock, before `push_back`. -/
  | registering
  /-- Behind `push_back`, before the end of the lock. -/
  | pushed
  /-- Before the thread of the connection is made. -/
  | registered
  /-- In `handle_client`, before `close_client`. -/
  | serving
  | closing (place : Closing)
  /-- No thread has the connection in hand any more, and it is closed. -/
  | gone
  /-- `push_back` has thrown, which ends `serve`: no thread has the connection in hand. -/
  | abandoned
  deriving DecidableEq, Repr

/-- Where the main thread is. -/
inductive Main where
  /-- Before `accept`. -/
  | accepting
  /-- In the loop of `serve`, with this connection in hand. -/
  | handling (client : Client)
  /-- In `stop_clients`, before the lock. -/
  | stopping
  /-- In the loop of `stop_clients`, before the element at this place of `client_fds_`. -/
  | shuttingDown (i : ℕ)
  /-- Behind the lock of `stop_clients`. -/
  | joining
  deriving DecidableEq, Repr

/-- Who holds `clients_mutex_`: the thread that has a connection in hand, for this connection, or
`stop_clients`. -/
inductive Owner where
  | client (client : Client)
  | stopClients
  deriving DecidableEq, Repr

/-- The state of the server. -/
structure Connections where
  /-- The open descriptors. -/
  files : ℕ → Option File
  /-- `client_fds_`, with each number the connection that it was registered for. -/
  clientFds : List Client := []
  mutex : Option Owner := none
  main : Main := .accepting
  stages : Client → Option Stage := fun _ => none
  /-- How many connections were accepted. -/
  next : ℕ := 0
  /-- The calls of `shutdown`: the number, and what it was open on. -/
  shutdowns : List (ℕ × Option File) := []

inductive Event where
  /-- `accept` returns this number. -/
  | accept (fd : ℕ)
  /-- The main thread leaves the loop of `serve`. -/
  | stop
  /-- The next step of the main thread for the connection that it has in hand. `ok` is whether
  a call that may fail does not. -/
  | serve (ok : Bool)
  /-- The next step of the thread of a connection. -/
  | handleClient (client : Client)
  /-- The next step of `stop_clients`. -/
  | stopClients
  /-- A thread opens or closes something that is not a connection. -/
  | openOther (fd : ℕ)
  | closeOther (fd : ℕ)
  deriving DecidableEq, Repr

namespace Connections

/-- The thread that has a connection in hand gets to another stage. -/
def goTo (s : Connections) (client : Client) (stage : Stage) : Connections :=
  { s with stages := update s.stages client (some stage) }

/-- The lock of `clients_mutex_`, which waits as long as someone holds it. -/
def lock (s : Connections) (owner : Owner) : Option Connections :=
  if s.mutex = none then some { s with mutex := some owner } else none

def unlock (s : Connections) : Connections := { s with mutex := none }

/-- `::close`. -/
def close (s : Connections) (fd : ℕ) : Connections := { s with files := update s.files fd none }

/-- The main thread goes on with the loop of `serve` if it had the connection in hand. -/
def letGo (s : Connections) (client : Client) : Connections :=
  { s with main := if s.main = .handling client then .accepting else s.main }

/-- `accept` returns a connection. -/
def accept (s : Connections) (client : Client) : Connections :=
  let s := { s with
    files := update s.files client.fd (some (.connection client)), main := .handling client,
    next := s.next + 1 }
  s.goTo client .accepted

/-- `close_client`. -/
def closeClient (s : Connections) (client : Client) : Closing → Option Connections
  | .waiting => do
    let s ← s.lock (.client client)
    pure (s.goTo client (.closing .locked))
  | .locked => some ((s.close client.fd).goTo client (.closing .closed))
  | .closed =>
    let s := { s with clientFds := s.clientFds.filter fun entry => entry.fd ≠ client.fd }
    some (s.goTo client (.closing .erased))
  | .erased => some ((s.unlock.letGo client).goTo client .gone)

/-- The loop of `serve` behind `accept`. -/
def serve (s : Connections) (client : Client) (ok : Bool) : Stage → Option Connections
  | .accepted =>
    if ok then some (s.goTo client .configured)
    else some (((s.close client.fd).letGo client).goTo client .gone)
  | .configured => do
    let s ← s.lock (.client client)
    pure (s.goTo client .registering)
  | .registering =>
    if ok then
      let s := { s with clientFds := s.clientFds ++ [client] }
      some (s.goTo client .pushed)
    else
      -- The lock ends with its scope, and `Server::run` catches the exception.
      let s := { s.unlock with main := .stopping }
      some (s.goTo client .abandoned)
  | .pushed => some (s.unlock.goTo client .registered)
  | .registered =>
    if ok then some ((s.letGo client).goTo client .serving)
    else some (s.goTo client (.closing .waiting))
  | .closing place => s.closeClient client place
  | .serving | .gone | .abandoned => none

/-- `handle_client`. What it does before `close_client` is one step. -/
def handleClient (s : Connections) (client : Client) : Stage → Option Connections
  | .serving => some (s.goTo client (.closing .waiting))
  | .closing place => s.closeClient client place
  | _ => none

/-- `stop_clients`. -/
def stopClients (s : Connections) : Option Connections :=
  match s.main with
  | .stopping => do
    let s ← s.lock .stopClients
    pure { s with main := .shuttingDown 0 }
  | .shuttingDown i =>
    match s.clientFds[i]? with
    | some entry =>
      some { s with
        main := .shuttingDown (i + 1), shutdowns := s.shutdowns ++ [(entry.fd, s.files entry.fd)] }
    | none => some { s.unlock with main := .joining }
  | _ => none

/-- One step of one thread. -/
def step (s : Connections) : Event → Option Connections
  | .accept fd =>
    if s.main = .accepting ∧ s.files fd = none then some (s.accept ⟨s.next, fd⟩) else none
  | .stop => if s.main = .accepting then some { s with main := .stopping } else none
  | .serve ok =>
    match s.main with
    | .handling client => do
      let stage ← s.stages client
      s.serve client ok stage
    | _ => none
  | .handleClient client =>
    if s.main = .handling client then none
    else do
      let stage ← s.stages client
      s.handleClient client stage
  | .stopClients => s.stopClients
  | .openOther fd =>
    if s.files fd = none then some { s with files := update s.files fd (some .other) } else none
  | .closeOther fd =>
    if s.files fd = some .other then some (s.close fd) else none

/-- Any steps of any threads. -/
def run (s : Connections) (events : List Event) : Option Connections := events.foldlM step s

end Connections

/-- Before the loop of `serve`, with some descriptors open. -/
def Connections.start (others : ℕ → Bool) : Connections where
  files fd := if others fd then some .other else none

/-! ## What the stages mean -/

/-- The thread that has the connection in hand holds the mutex. -/
def Stage.locks : Stage → Bool
  | .registering | .pushed => true
  | .closing .locked | .closing .closed | .closing .erased => true
  | _ => false

/-- The connection is in `client_fds_`. -/
def Stage.isListed : Stage → Bool
  | .pushed | .registered | .serving => true
  | .closing .waiting | .closing .locked | .closing .closed => true
  | _ => false

/-- The connection has not been closed. -/
def Stage.isOpen : Stage → Bool
  | .closing .closed | .closing .erased | .gone => false
  | _ => true

/-- The thread of the connection runs, and has not closed it. -/
def Stage.isServed : Stage → Bool
  | .serving | .closing .waiting | .closing .locked => true
  | _ => false

theorem Stage.isListed_of_isServed {stage : Stage} (h : stage.isServed) : stage.isListed := by
  revert h
  cases stage with
  | closing place => cases place <;> decide
  | _ => decide

theorem Stage.isOpen_of_isListed {stage : Stage} (hlisted : stage.isListed)
    (hlocks : ¬stage.locks) : stage.isOpen := by
  revert hlisted hlocks
  cases stage with
  | closing place => cases place <;> decide
  | _ => decide

namespace Connections

/-- What a step of the thread that has a connection in hand does, told by the stages before and
after it. -/
structure Moves (s s' : Connections) (client : Client) (old new : Stage) : Prop where
  stage : s.stages client = some old
  stages : s'.stages = update s.stages client (some new) := by rfl
  next : s'.next = s.next := by rfl
  shutdowns : s'.shutdowns = s.shutdowns := by rfl
  main : s'.main = s.main ∨
    s.main = .handling client ∧ (s'.main = .accepting ∨ s'.main = .stopping) := by exact .inl rfl
  mutex :
    match old.locks, new.locks with
    | false, true => s.mutex = none ∧ s'.mutex = some (.client client)
    | true, false => s'.mutex = none
    | _, _ => s'.mutex = s.mutex := by rfl
  clientFds :
    match old.isListed, new.isListed with
    | false, true => s'.clientFds = s.clientFds ++ [client]
    | true, false => s'.clientFds = s.clientFds.filter fun entry => entry.fd ≠ client.fd
    | _, _ => s'.clientFds = s.clientFds := by rfl
  files :
    match old.isOpen, new.isOpen with
    | true, false => s'.files = update s.files client.fd none
    | _, _ => s'.files = s.files := by rfl
  isOpen : new.isOpen → old.isOpen := by decide
  /-- `client_fds_` changes under the lock only, and what is registered is open. -/
  underLock : old.isListed ≠ new.isListed → old.locks ∧ (new.isListed → old.isOpen) := by decide
  /-- Only the main thread registers. -/
  registers : old.isListed = false → new.isListed → s.main = .handling client := by
    simp [Stage.isListed]
  erases : old.isListed → new.isListed = false → old = .closing .closed ∧ new = .closing .erased :=
    by decide

theorem lock_eq_some {s s' : Connections} {owner : Owner} :
    s.lock owner = some s' ↔ s.mutex = none ∧ s' = { s with mutex := some owner } := by
  unfold lock
  split_ifs with h
  · rw [Option.some.injEq]
    exact ⟨fun heq => ⟨h, heq.symm⟩, fun heq => heq.2.symm⟩
  · simp [h]

theorem letGo_main (s : Connections) (client : Client) :
    (s.letGo client).main = s.main ∨
      s.main = .handling client ∧
        ((s.letGo client).main = .accepting ∨ (s.letGo client).main = .stopping) := by
  unfold letGo
  split_ifs with h
  · exact .inr ⟨h, .inl rfl⟩
  · exact .inl rfl

section Steps

variable {s s' : Connections} {client : Client}

theorem closeClient_moves {place : Closing} (hstage : s.stages client = some (.closing place))
    (h : s.closeClient client place = some s') :
    ∃ new, s.Moves s' client (.closing place) new := by
  cases place with
  | waiting =>
    obtain ⟨_, hlock, h⟩ := Option.bind_eq_some_iff.mp h
    obtain ⟨hfree, rfl⟩ := lock_eq_some.mp hlock
    obtain rfl := Option.some.inj h
    exact ⟨.closing .locked, { stage := hstage, mutex := ⟨hfree, rfl⟩ }⟩
  | locked =>
    obtain rfl := Option.some.inj h
    exact ⟨.closing .closed, { stage := hstage }⟩
  | closed =>
    obtain rfl := Option.some.inj h
    exact ⟨.closing .erased, { stage := hstage }⟩
  | erased =>
    obtain rfl := Option.some.inj h
    exact ⟨.gone, { stage := hstage, main := s.unlock.letGo_main client }⟩

theorem handleClient_moves {old : Stage} (hstage : s.stages client = some old)
    (h : s.handleClient client old = some s') : ∃ new, s.Moves s' client old new := by
  cases old with
  | serving =>
    obtain rfl := Option.some.inj h
    exact ⟨.closing .waiting, { stage := hstage }⟩
  | closing place => exact closeClient_moves hstage h
  | _ => cases h

theorem serve_moves {ok : Bool} {old : Stage} (hmain : s.main = .handling client)
    (hstage : s.stages client = some old) (h : s.serve client ok old = some s') :
    ∃ new, s.Moves s' client old new := by
  cases old with
  | accepted =>
    cases ok with
    | true =>
      obtain rfl := Option.some.inj h
      exact ⟨.configured, { stage := hstage }⟩
    | false =>
      obtain rfl := Option.some.inj h
      exact ⟨.gone, { stage := hstage, main := (s.close client.fd).letGo_main client }⟩
  | configured =>
    obtain ⟨_, hlock, h⟩ := Option.bind_eq_some_iff.mp h
    obtain ⟨hfree, rfl⟩ := lock_eq_some.mp hlock
    obtain rfl := Option.some.inj h
    exact ⟨.registering, { stage := hstage, mutex := ⟨hfree, rfl⟩ }⟩
  | registering =>
    cases ok with
    | true =>
      obtain rfl := Option.some.inj h
      exact ⟨.pushed, { stage := hstage, registers := fun _ _ => hmain }⟩
    | false =>
      obtain rfl := Option.some.inj h
      exact ⟨.abandoned, { stage := hstage, main := .inr ⟨hmain, .inr rfl⟩ }⟩
  | pushed =>
    obtain rfl := Option.some.inj h
    exact ⟨.registered, { stage := hstage }⟩
  | registered =>
    cases ok with
    | true =>
      obtain rfl := Option.some.inj h
      exact ⟨.serving, { stage := hstage, main := s.letGo_main client }⟩
    | false =>
      obtain rfl := Option.some.inj h
      exact ⟨.closing .waiting, { stage := hstage }⟩
  | closing place => exact closeClient_moves hstage h
  | _ => cases h

end Steps

/-- What one step of one thread can change. -/
inductive Changes (s : Connections) : Connections → Prop where
  | accept {fd : ℕ} (hmain : s.main = .accepting) (hfd : s.files fd = none) :
    Changes s (s.accept ⟨s.next, fd⟩)
  | stop (hmain : s.main = .accepting) : Changes s { s with main := .stopping }
  | moves {s' : Connections} {client : Client} {old new : Stage}
    (hmove : s.Moves s' client old new) : Changes s s'
  | lockToStop (hmain : s.main = .stopping) (hfree : s.mutex = none) :
    Changes s { s with mutex := some .stopClients, main := .shuttingDown 0 }
  | shutdown {i : ℕ} {entry : Client} (hmain : s.main = .shuttingDown i)
    (hentry : s.clientFds[i]? = some entry) :
    Changes s { s with
      main := .shuttingDown (i + 1), shutdowns := s.shutdowns ++ [(entry.fd, s.files entry.fd)] }
  | endStop {i : ℕ} (hmain : s.main = .shuttingDown i) (hend : s.clientFds[i]? = none) :
    Changes s { s.unlock with main := .joining }
  /-- Descriptors that are not connections come and go. -/
  | files {files : ℕ → Option File}
    (hfiles : ∀ fd client, s.files fd = some (.connection client) →
      files fd = some (.connection client)) : Changes s { s with files := files }

section Steps

variable {s s' : Connections}

theorem stopClients_changes (hstep : s.stopClients = some s') : s.Changes s' := by
  unfold stopClients at hstep
  cases hmain : s.main with
  | stopping =>
    rw [hmain] at hstep
    obtain ⟨_, hlock, hstep⟩ := Option.bind_eq_some_iff.mp hstep
    obtain ⟨hfree, rfl⟩ := lock_eq_some.mp hlock
    obtain rfl := Option.some.inj hstep
    exact .lockToStop hmain hfree
  | shuttingDown i =>
    rw [hmain] at hstep
    dsimp only at hstep
    split at hstep
    · next entry hentry =>
      obtain rfl := Option.some.inj hstep
      exact .shutdown hmain hentry
    · next hend =>
      obtain rfl := Option.some.inj hstep
      exact .endStop hmain hend
  | _ =>
    rw [hmain] at hstep
    cases hstep

/-- Another value of a number that is not open on a connection. -/
theorem update_files_changes {fd : ℕ} (hfd : ∀ client, s.files fd ≠ some (.connection client))
    (file : Option File) : s.Changes { s with files := update s.files fd file } := by
  refine .files fun number client hnumber => ?_
  have hne : number ≠ fd := by
    rintro rfl
    exact hfd client hnumber
  rw [update_of_ne hne, hnumber]

theorem step_changes {event : Event} (hstep : s.step event = some s') : s.Changes s' := by
  unfold step at hstep
  cases event with
  | accept fd =>
    obtain ⟨hc, hstep⟩ := Option.ite_none_right_eq_some.mp hstep
    obtain rfl := Option.some.inj hstep
    exact .accept hc.1 hc.2
  | stop =>
    obtain ⟨hmain, hstep⟩ := Option.ite_none_right_eq_some.mp hstep
    obtain rfl := Option.some.inj hstep
    exact .stop hmain
  | serve ok =>
    dsimp only at hstep
    split at hstep
    · next client hmain =>
      obtain ⟨stage, hstage, hstep⟩ := Option.bind_eq_some_iff.mp hstep
      obtain ⟨new, hmove⟩ := serve_moves hmain hstage hstep
      exact .moves hmove
    · cases hstep
  | handleClient client =>
    obtain ⟨-, hstep⟩ := Option.ite_none_left_eq_some.mp hstep
    obtain ⟨stage, hstage, hstep⟩ := Option.bind_eq_some_iff.mp hstep
    obtain ⟨new, hmove⟩ := handleClient_moves hstage hstep
    exact .moves hmove
  | stopClients => exact stopClients_changes hstep
  | openOther fd =>
    obtain ⟨hfd, hstep⟩ := Option.ite_none_right_eq_some.mp hstep
    obtain rfl := Option.some.inj hstep
    exact update_files_changes (by simp [hfd]) _
  | closeOther fd =>
    obtain ⟨hfd, hstep⟩ := Option.ite_none_right_eq_some.mp hstep
    obtain rfl := Option.some.inj hstep
    exact update_files_changes (by simp [hfd]) _

end Steps

/-! ## What holds in every state -/

/-- A connection is in one of these stages. -/
def At (s : Connections) (p : Stage → Bool) (client : Client) : Prop :=
  ∃ stage, s.stages client = some stage ∧ p stage

/-- A call of `shutdown` for a connection that is open. -/
def liveCall (client : Client) : ℕ × Option File := (client.fd, some (.connection client))

/-- What has been shut down. -/
def Stopped (s : Connections) : Prop :=
  match s.main with
  | .shuttingDown i => s.shutdowns = (s.clientFds.take i).map liveCall
  | .joining => ∀ client ∈ s.clientFds, liveCall client ∈ s.shutdowns
  | _ => s.shutdowns = []

/-- What holds in every state that a run ends in. -/
structure Valid (s : Connections) : Prop where
  /-- The stages say who holds the mutex. -/
  locks (client : Client) : s.mutex = some (.client client) ↔ s.At Stage.locks client
  stopLocks : s.mutex = some .stopClients ↔ ∃ i, s.main = .shuttingDown i
  /-- The stages say what is registered. -/
  listed (client : Client) : client ∈ s.clientFds ↔ s.At Stage.isListed client
  isOpen (client : Client) :
    s.At Stage.isOpen client → s.files client.fd = some (.connection client)
  fresh (client : Client) : s.next ≤ client.id → s.stages client = none
  nodup : (s.clientFds.map Client.fd).Nodup
  stopped : s.Stopped
  live : ∀ call ∈ s.shutdowns, ∃ client, call = liveCall client

section

variable {s s' : Connections} {client other : Client} {old new : Stage} {p : Stage → Bool}

theorem at_iff (h : s.stages client = some old) : s.At p client ↔ p old := by
  simp [At, h]

theorem Moves.at_self (h : s.Moves s' client old new) : s'.At p client ↔ p new :=
  at_iff (by rw [h.stages, update_self])

theorem Moves.at_of_ne (h : s.Moves s' client old new) (hne : other ≠ client) :
    s'.At p other ↔ s.At p other := by
  unfold At
  rw [h.stages, update_of_ne hne]

/-- A registered connection is open unless its thread has the lock. -/
theorem Valid.isOpen_of_listed (h : s.Valid) (hlisted : client ∈ s.clientFds)
    (hlock : s.mutex ≠ some (.client client)) :
    s.files client.fd = some (.connection client) := by
  obtain ⟨stage, hstage, hlisted⟩ := (h.listed client).mp hlisted
  rw [Ne, h.locks, at_iff hstage] at hlock
  exact h.isOpen client ⟨stage, hstage, Stage.isOpen_of_isListed hlisted hlock⟩

namespace Valid

theorem moves_locks (h : s.Valid) (hmove : s.Moves s' client old new) (other : Client) :
    s'.mutex = some (.client other) ↔ s'.At Stage.locks other := by
  have hmutex := hmove.mutex
  have hold := (h.locks client).trans (at_iff hmove.stage)
  by_cases hother : other = client
  · rw [hother, hmove.at_self]
    cases hl : old.locks <;> cases hn : new.locks <;> grind
  · rw [hmove.at_of_ne hother, ← h.locks other]
    cases hl : old.locks <;> cases hn : new.locks <;> grind

theorem moves_stopLocks (h : s.Valid) (hmove : s.Moves s' client old new) :
    s'.mutex = some .stopClients ↔ ∃ i, s'.main = .shuttingDown i := by
  have hmutex := hmove.mutex
  have hold := (h.locks client).trans (at_iff hmove.stage)
  have hstop := h.stopLocks
  have hmain := hmove.main
  cases hl : old.locks <;> cases hn : new.locks <;> grind

/-- While someone has the mutex, no other changes what is registered. -/
theorem clientFds_of_mutex_ne (h : s.Valid) (hmove : s.Moves s' client old new)
    (hne : s.mutex ≠ some (.client client)) : s'.clientFds = s.clientFds := by
  have hlocks : old.locks ≠ true := fun hl =>
    hne ((h.locks client).mpr ((at_iff hmove.stage).mpr hl))
  have hsame : old.isListed = new.isListed := by
    by_contra hdiff
    exact hlocks (hmove.underLock hdiff).1
  have hfds := hmove.clientFds
  rw [hsame] at hfds
  cases hn : new.isListed <;> simpa [hn] using hfds

theorem moves_nodup (h : s.Valid) (hmove : s.Moves s' client old new) :
    (s'.clientFds.map Client.fd).Nodup := by
  have hfds := hmove.clientFds
  split at hfds
  · next hold hnew =>
    obtain ⟨hlock, hisOpen⟩ := hmove.underLock (by simp [hold, hnew])
    have hmutex := (h.locks client).mpr ((at_iff hmove.stage).mpr hlock)
    have hfile := h.isOpen client ((at_iff hmove.stage).mpr (hisOpen hnew))
    rw [hfds, List.map_append, List.map_singleton, List.nodup_append]
    refine ⟨h.nodup, List.nodup_singleton _, ?_⟩
    rintro _ hfd fd hself rfl
    obtain rfl := List.mem_singleton.mp hself
    obtain ⟨entry, hentry, heq⟩ := List.mem_map.mp hfd
    have hne : entry ≠ client := by
      rintro rfl
      rw [h.listed, at_iff hmove.stage, hold] at hentry
      cases hentry
    -- The registered connection is open too, so that the number would be open on both.
    have hentryFile := h.isOpen_of_listed hentry (by rw [hmutex]; simpa using hne.symm)
    rw [heq, hfile] at hentryFile
    exact hne (by simpa using hentryFile.symm)
  · rw [hfds]
    exact h.nodup.sublist (List.filter_sublist.map _)
  · rw [hfds]
    exact h.nodup

theorem moves_listed (h : s.Valid) (hmove : s.Moves s' client old new) (other : Client) :
    other ∈ s'.clientFds ↔ s'.At Stage.isListed other := by
  have hold := (h.listed client).trans (at_iff hmove.stage)
  have hfds := hmove.clientFds
  by_cases hother : other = client
  · rw [hother, hmove.at_self]
    cases hl : old.isListed <;> cases hn : new.isListed <;> grind
  · rw [hmove.at_of_ne hother, ← h.listed other]
    split at hfds
    · rw [hfds]
      simp [hother]
    · next hl hn =>
      have hne : ∀ entry ∈ s.clientFds, entry ≠ client → entry.fd ≠ client.fd :=
        fun entry hentry hne heq =>
          hne (List.inj_on_of_nodup_map h.nodup hentry (hold.mpr hl) heq)
      rw [hfds, List.mem_filter]
      simpa using fun hentry => hne other hentry hother
    · rw [hfds]

theorem moves_isOpen (h : s.Valid) (hmove : s.Moves s' client old new) (other : Client)
    (hother : s'.At Stage.isOpen other) : s'.files other.fd = some (.connection other) := by
  have hfiles := hmove.files
  have hself : old.isOpen → s.files client.fd = some (.connection client) := fun ho =>
    h.isOpen client ((at_iff hmove.stage).mpr ho)
  by_cases heq : other = client
  · rw [heq, hmove.at_self] at hother
    rw [heq]
    grind [hmove.isOpen]
  · rw [hmove.at_of_ne heq] at hother
    have hfile := h.isOpen other hother
    split at hfiles
    · next ho hn =>
      have hne : other.fd ≠ client.fd := by
        intro hfd
        rw [hfd, hself ho] at hfile
        exact heq (by simpa using hfile.symm)
      rw [hfiles, update_of_ne hne, hfile]
    · rw [hfiles, hfile]

theorem moves_stopped (h : s.Valid) (hmove : s.Moves s' client old new) : s'.Stopped := by
  have hstopped := h.stopped
  unfold Stopped at hstopped ⊢
  rcases hmove.main with hmain | ⟨hm, hmain⟩
  · rw [hmain, hmove.shutdowns]
    cases hm : s.main with
    | shuttingDown i =>
      rw [hm] at hstopped
      have hmutex := h.stopLocks.mpr ⟨i, hm⟩
      rw [h.clientFds_of_mutex_ne hmove (by simp [hmutex])]
      exact hstopped
    | joining =>
      rw [hm] at hstopped
      have hfds := hmove.clientFds
      intro other hother
      refine hstopped other ?_
      split at hfds
      · next hl hn =>
        have := hmove.registers hl hn
        rw [hm] at this
        cases this
      · rw [hfds] at hother
        exact (List.mem_filter.mp hother).1
      · rwa [hfds] at hother
    | _ =>
      rw [hm] at hstopped
      exact hstopped
  · rw [hm] at hstopped
    rcases hmain with hmain | hmain <;>
    · rw [hmain, hmove.shutdowns]
      exact hstopped

/-- What the stages say stays true when a thread goes on with its connection. -/
theorem moves (h : s.Valid) (hmove : s.Moves s' client old new) : s'.Valid where
  locks := h.moves_locks hmove
  stopLocks := h.moves_stopLocks hmove
  listed := h.moves_listed hmove
  isOpen := h.moves_isOpen hmove
  fresh other hother := by
    have hnone := h.fresh other (by rwa [hmove.next] at hother)
    have hne : other ≠ client := by
      rintro rfl
      rw [hmove.stage] at hnone
      cases hnone
    rw [hmove.stages, update_of_ne hne, hnone]
  nodup := h.moves_nodup hmove
  stopped := h.moves_stopped hmove
  live := by
    rw [hmove.shutdowns]
    exact h.live

/-- The new connection is no other's, and its number was not open. -/
theorem accept (h : s.Valid) (hid : client.id = s.next) (hmain : s.main = .accepting)
    (hfd : s.files client.fd = none) : (s.accept client).Valid := by
  have hnone := h.fresh client (by omega)
  have hself (p : Stage → Bool) : (s.accept client).At p client ↔ p .accepted :=
    at_iff (update_self ..)
  have hother (p : Stage → Bool) {other : Client} (hne : other ≠ client) :
      (s.accept client).At p other ↔ s.At p other := by
    unfold At Connections.accept goTo
    dsimp only
    rw [update_of_ne hne]
  have hbefore (p : Stage → Bool) : ¬s.At p client := by
    rintro ⟨stage, hstage, -⟩
    rw [hnone] at hstage
    cases hstage
  -- A connection that was not there does not have the lock and is not registered.
  have hkeep {p : Stage → Bool} (hp : p .accepted = false) (other : Client) :
      (s.accept client).At p other ↔ s.At p other := by
    by_cases hne : other = client
    · rw [hne, hself, hp]
      simpa using hbefore p
    · exact hother p hne
  exact {
    locks := fun other => (h.locks other).trans (hkeep rfl other).symm
    stopLocks := by
      change s.mutex = _ ↔ ∃ i, Main.handling client = _
      rw [h.stopLocks, hmain]
      simp
    listed := fun other => (h.listed other).trans (hkeep rfl other).symm
    isOpen := by
      intro other hopen
      change update s.files client.fd _ other.fd = _
      by_cases hne : other = client
      · rw [hne, update_self]
      · have hfile := h.isOpen other ((hother _ hne).mp hopen)
        rw [update_of_ne, hfile]
        intro heq
        rw [heq, hfd] at hfile
        cases hfile
    fresh := by
      intro other hle
      change s.next + 1 ≤ other.id at hle
      have hne : other ≠ client := by
        rintro rfl
        omega
      change update s.stages client _ other = none
      rw [update_of_ne hne, h.fresh other (by omega)]
    nodup := h.nodup
    stopped := by
      have hstopped := h.stopped
      rw [Stopped, hmain] at hstopped
      exact hstopped
    live := h.live }

/-- Descriptors that are not connections come and go. -/
theorem files (h : s.Valid) {files : ℕ → Option File}
    (hfiles : ∀ fd client, s.files fd = some (.connection client) →
      files fd = some (.connection client)) : { s with files := files }.Valid :=
  { h with isOpen := fun client hopen => hfiles _ _ (h.isOpen client hopen) }

/-- Before `stop_clients` has the lock, it has shut down nothing. -/
theorem shutdowns_eq_nil (h : s.Valid) (hmain : s.main = .accepting ∨ s.main = .stopping) :
    s.shutdowns = [] := by
  have hstopped := h.stopped
  rcases hmain with hmain | hmain
  all_goals
    rw [Stopped, hmain] at hstopped
    exact hstopped

theorem stop (h : s.Valid) (hmain : s.main = .accepting) : { s with main := .stopping }.Valid :=
  { h with
    stopLocks := by
      rw [h.stopLocks, hmain]
      simp
    stopped := h.shutdowns_eq_nil (.inl hmain) }

/-- `stop_clients` gets the lock. -/
theorem lockToStop (h : s.Valid) (hmain : s.main = .stopping) (hfree : s.mutex = none) :
    { s with mutex := some .stopClients, main := .shuttingDown 0 }.Valid :=
  { h with
    locks := fun client => by
      have hclient := h.locks client
      rw [hfree] at hclient
      change some Owner.stopClients = _ ↔ s.At Stage.locks client
      simpa using hclient
    stopLocks := by simp
    stopped := h.shutdowns_eq_nil (.inr hmain) }

/-- `stop_clients` shuts down the next connection. -/
theorem shutdownNext (h : s.Valid) {i : ℕ} (hmain : s.main = .shuttingDown i) {entry : Client}
    (hentry : s.clientFds[i]? = some entry) :
    { s with
      main := .shuttingDown (i + 1),
      shutdowns := s.shutdowns ++ [(entry.fd, s.files entry.fd)] }.Valid := by
  have hmutex := h.stopLocks.mpr ⟨i, hmain⟩
  have hstopped := h.stopped
  rw [Stopped, hmain] at hstopped
  have hcall : (entry.fd, s.files entry.fd) = liveCall entry := by
    rw [h.isOpen_of_listed (List.mem_of_getElem? hentry) (by simp [hmutex]), liveCall]
  exact { h with
    stopLocks := by simpa using hmutex
    stopped := by
      change s.shutdowns ++ _ = (s.clientFds.take (i + 1)).map liveCall
      rw [List.take_add_one, hentry, List.map_append, ← hstopped, hcall]
      rfl
    live := by
      rw [hcall]
      intro call hmem
      rcases List.mem_append.mp hmem with hmem | hmem
      · exact h.live call hmem
      · exact ⟨entry, List.mem_singleton.mp hmem⟩ }

/-- The loop of `stop_clients` is over. -/
theorem endStop (h : s.Valid) {i : ℕ} (hmain : s.main = .shuttingDown i)
    (hend : s.clientFds[i]? = none) : { s.unlock with main := .joining }.Valid :=
  { h with
    locks := fun client => by
      have hclient := h.locks client
      rw [h.stopLocks.mpr ⟨i, hmain⟩] at hclient
      change none = _ ↔ s.At Stage.locks client
      simpa using hclient
    stopLocks := by simp [unlock]
    stopped := by
      intro client hclient
      have hstopped := h.stopped
      rw [Stopped, hmain] at hstopped
      change liveCall client ∈ s.shutdowns
      rw [hstopped, List.take_of_length_le (List.getElem?_eq_none_iff.mp hend)]
      exact List.mem_map_of_mem hclient }

theorem changes (h : s.Valid) (hchange : s.Changes s') : s'.Valid := by
  cases hchange with
  | accept hmain hfd => exact h.accept rfl hmain hfd
  | stop hmain => exact h.stop hmain
  | moves hmove => exact h.moves hmove
  | lockToStop hmain hfree => exact h.lockToStop hmain hfree
  | shutdown hmain hentry => exact h.shutdownNext hmain hentry
  | endStop hmain hend => exact h.endStop hmain hend
  | files hfiles => exact h.files hfiles

theorem run (h : s.Valid) {events : List Event} (hrun : s.run events = some s') : s'.Valid :=
  foldlM_invariant (fun h hstep => h.changes (step_changes hstep)) hrun h

/-- A registration that a step removes is the one whose `close_client` this step belongs to. -/
theorem stages_of_removed (h : s.Valid) (hchange : s.Changes s') (hbefore : client ∈ s.clientFds)
    (hafter : client ∉ s'.clientFds) :
    s.stages client = some (.closing .closed) ∧ s'.stages client = some (.closing .erased) := by
  cases hchange with
  | @moves _ mover old new hmove =>
    have hfds := hmove.clientFds
    split at hfds
    · rw [hfds] at hafter
      exact absurd (List.mem_append_left _ hbefore) hafter
    · next hold hnew =>
      obtain ⟨rfl, rfl⟩ := hmove.erases hold hnew
      rw [hfds, List.mem_filter] at hafter
      have hfd : client.fd = mover.fd := by simpa [hbefore] using hafter
      have hmover := (h.listed mover).mpr ((at_iff hmove.stage).mpr hold)
      obtain rfl := List.inj_on_of_nodup_map h.nodup hbefore hmover hfd
      exact ⟨hmove.stage, by rw [hmove.stages, update_self]⟩
    · rw [hfds] at hafter
      exact absurd hbefore hafter
  | _ => exact absurd hbefore hafter

end Valid

/-- `stop_clients` has a connection before it, or behind it. -/
def StoppedFor (client : Client) (s : Connections) : Prop :=
  (∃ i, s.main = .shuttingDown i) ∧ client ∈ s.clientFds ∨
    s.main = .joining ∧ liveCall client ∈ s.shutdowns

theorem Valid.changes_stoppedFor (h : s.Valid) (hstopped : StoppedFor client s)
    (hchange : s.Changes s') : StoppedFor client s' := by
  have hvalid := (h.changes hchange).stopped
  rcases hstopped with ⟨⟨i, hi⟩, hclient⟩ | ⟨hi, hcall⟩
  · cases hchange with
    | moves hmove =>
      have hmain : s'.main = s.main := by simpa [hi] using hmove.main
      have hmutex := h.stopLocks.mpr ⟨i, hi⟩
      refine .inl ⟨⟨i, hmain.trans hi⟩, ?_⟩
      rwa [h.clientFds_of_mutex_ne hmove (by simp [hmutex])]
    | shutdown => exact .inl ⟨⟨_, rfl⟩, hclient⟩
    | endStop => exact .inr ⟨rfl, hvalid client hclient⟩
    | files => exact .inl ⟨⟨i, hi⟩, hclient⟩
    | accept hmain | stop hmain | lockToStop hmain =>
      rw [hi] at hmain
      cases hmain
  · cases hchange with
    | moves hmove =>
      have hmain : s'.main = s.main := by simpa [hi] using hmove.main
      exact .inr ⟨hmain.trans hi, by rwa [hmove.shutdowns]⟩
    | files => exact .inr ⟨hi, hcall⟩
    | accept hmain | stop hmain | lockToStop hmain | shutdown hmain | endStop hmain =>
      rw [hi] at hmain
      cases hmain

theorem Valid.run_stoppedFor (h : s.Valid) (hstopped : StoppedFor client s) {events : List Event}
    (hrun : s.run events = some s') : StoppedFor client s' := by
  have hkeep : s'.Valid ∧ StoppedFor client s' :=
    foldlM_invariant (I := fun s => s.Valid ∧ StoppedFor client s)
      (fun h hstep => ⟨h.1.changes (step_changes hstep),
        h.1.changes_stoppedFor h.2 (step_changes hstep)⟩) hrun ⟨h, hstopped⟩
  exact hkeep.2

/-- The loop of `stop_clients` waits for nothing, and comes to its end. -/
theorem run_stopClients {i : ℕ} (hmain : s.main = .shuttingDown i) :
    ∃ s', s.run (List.replicate (s.clientFds.length - i + 1) .stopClients) = some s' ∧
      s'.main = .joining := by
  obtain ⟨n, hn⟩ : ∃ n, n = s.clientFds.length - i := ⟨_, rfl⟩
  rw [← hn]
  induction n generalizing s i with
  | zero =>
    have hend : s.clientFds[i]? = none := List.getElem?_eq_none (by omega)
    refine ⟨{ s.unlock with main := .joining }, ?_, rfl⟩
    simp [run, step, stopClients, hmain, hend]
  | succ n ih =>
    have hlt : i < s.clientFds.length := by omega
    have hentry : s.clientFds[i]? = some s.clientFds[i] := List.getElem?_eq_getElem hlt
    obtain ⟨s', hrun, hjoining⟩ := ih (s := { s with
      main := .shuttingDown (i + 1),
      shutdowns := s.shutdowns ++ [(s.clientFds[i].fd, s.files s.clientFds[i].fd)] }) rfl
      (by simp only; omega)
    refine ⟨s', ?_, hjoining⟩
    rw [List.replicate_succ]
    refine Option.bind_eq_some_iff.mpr ⟨_, ?_, hrun⟩
    simp [step, stopClients, hmain, hentry]

end

theorem valid_start (others : ℕ → Bool) : (start others).Valid where
  locks client := by simp [start, At]
  stopLocks := by simp [start]
  listed client := by simp [start, At]
  isOpen client := by simp [start, At]
  fresh client _ := rfl
  nodup := List.nodup_nil
  stopped := rfl
  live := by simp [start]

end Connections

/-- In whatever order the threads run:

* when the mutex is free, no number is registered twice, and every registered number is open on the
  connection that it was registered for;
* a registration is only removed by the `close_client` of its own connection;
* when `stop_clients` has the lock, every connection that is still served is registered; its loop
  comes to an end, and when it has, all these connections have been shut down;
* every call of `shutdown` was for a number that was open on a connection. -/
theorem registered_connections_live (others : ℕ → Bool) (events : List Event) (s : Connections)
    (hrun : (Connections.start others).run events = some s) :
    (s.mutex = none →
      (s.clientFds.map Client.fd).Nodup ∧
        ∀ client ∈ s.clientFds, s.files client.fd = some (.connection client)) ∧
    (∀ event s', s.step event = some s' → ∀ client ∈ s.clientFds, client ∉ s'.clientFds →
      s.stages client = some (.closing .closed) ∧ s'.stages client = some (.closing .erased)) ∧
    (∀ i, s.main = .shuttingDown i →
      (∀ client, s.At Stage.isServed client → client ∈ s.clientFds) ∧
      (∃ s', s.run (List.replicate (s.clientFds.length - i + 1) .stopClients) = some s' ∧
        s'.main = .joining) ∧
      ∀ more s', s.run more = some s' → s'.main = .joining →
        ∀ client, s.At Stage.isServed client →
          (client.fd, some (.connection client)) ∈ s'.shutdowns) ∧
    ∀ call ∈ s.shutdowns, ∃ client : Client, call = (client.fd, some (.connection client)) := by
  have h := (Connections.valid_start others).run hrun
  have hlisted : ∀ client, s.At Stage.isServed client → client ∈ s.clientFds := by
    rintro client ⟨stage, hstage, hserved⟩
    exact (h.listed client).mpr ⟨stage, hstage, Stage.isListed_of_isServed hserved⟩
  refine ⟨fun hfree => ⟨h.nodup, fun client hclient => ?_⟩, ?_, ?_, h.live⟩
  · exact h.isOpen_of_listed hclient (by simp [hfree])
  · intro event s' hstep client hbefore hafter
    exact h.stages_of_removed (Connections.step_changes hstep) hbefore hafter
  · intro i hmain
    refine ⟨hlisted, Connections.run_stopClients hmain, ?_⟩
    intro more s' hmore hjoining client hserved
    rcases h.run_stoppedFor (.inl ⟨⟨i, hmain⟩, hlisted client hserved⟩) hmore with
      ⟨⟨j, hj⟩, -⟩ | ⟨-, hcall⟩
    · rw [hjoining] at hj
      cases hj
    · exact hcall

/-- The number of the first connection is given out again before it is erased, and the second
connection is shut down. -/
theorem registered_connections_live_reused :
    let others : ℕ → Bool := fun fd => fd < 4
    let registerAndStart : List Event := List.replicate 4 (.serve true)
    let events : List Event :=
      [.accept 4, .serve true] ++ registerAndStart ++ List.replicate 3 (.handleClient ⟨0, 4⟩) ++
        [.accept 4, .serve true] ++ List.replicate 2 (.handleClient ⟨0, 4⟩) ++
        registerAndStart ++ [.stop, .stopClients]
    ∃ s, (Connections.start others).run events = some s ∧ s.main = .shuttingDown 0 ∧
      s.clientFds = [⟨1, 4⟩] ∧
      ∀ more s', s.run more = some s' → s'.main = .joining →
        (4, some (File.connection ⟨1, 4⟩)) ∈ s'.shutdowns := by
  intro others registerAndStart events
  refine ⟨_, rfl, rfl, rfl, fun more s' hmore hjoining => ?_⟩
  obtain ⟨-, -, hstop, -⟩ := registered_connections_live others events _ rfl
  exact (hstop 0 rfl).2.2 more s' hmore hjoining ⟨1, 4⟩ ⟨.serving, rfl, rfl⟩

end Rucbase.Server
