import Rucbase.Net.Handshake
import Rucbase.Server.Session

/-!
# A connection from its first byte on

`Session` describes a connection behind the handshake. Here the handshake comes first: the client
(`Client::Connect`, `src/net/client.cpp`) sends the message, the server (`Server::handle_client`,
`src/server/server.cpp`) checks it and sends it back, and the client checks the echo. Each side may
fail at any point, and the server may go away. The bytes of the handshake travel through the same
two streams as the frames behind it.

When `Connect` has succeeded, the two streams are empty again, and what follows is a session from
its beginning (`session_of_ready`): no byte of the handshake is ever taken for a frame, and no
request is served before both sides have agreed.
-/

namespace Rucbase.Server

open Lib Wire

/-- How far `Client::Connect` has got with the handshake. -/
inductive Greeting where
  | connecting
  /-- Behind `WriteHandshakeBytes`. -/
  | greeted
  /-- `Connect` has returned without an error. -/
  | ready
  | failed
  deriving DecidableEq, Repr

/-- How far `handle_client` has got. -/
inductive Serving where
  /-- Before `ReadAndCheckHandshake`. -/
  | waiting
  /-- In the loop over the requests. -/
  | serving
  | closed
  deriving DecidableEq, Repr

/-- The state of a connection: where the two parties are, and the streams and logs of the
session. -/
structure Connection where
  client : Greeting := .connecting
  server : Serving := .waiting
  session : Session := {}

/-- One step of a connection. -/
inductive Connection.Step : Connection → Connection → Prop where
  /-- The client sends the message. -/
  | greet {c : Connection} (schedule : List SendEvent) (errno : Bytes) {ok : Bool} {sink : Sink}
      (hclient : c.client = .connecting)
      (hwrite : writeHandshakeBytes ⟨schedule, [], errno⟩ = (ok, sink)) :
      Step c { c with
        client := if ok then .greeted else .failed
        session := { c.session with toServer := c.session.toServer ++ sink.written } }
  /-- The server reads a message, and answers it if it is the right one. -/
  | accept {c : Connection} {events rest : List RecvEvent} (schedule : List SendEvent)
      (errno : Bytes) {ok : Bool} {sink : Sink} (hserver : c.server = .waiting)
      (hevents : available events <+: c.session.toServer)
      (hread : readAndCheckHandshake events ⟨schedule, [], errno⟩ = (ok, rest, sink)) :
      Step c { c with
        server := if ok then .serving else .closed
        session := { c.session with
          serverOpen := ok
          toServer := c.session.toServer.drop (consumed events rest).length
          toClient := c.session.toClient ++ sink.written } }
  /-- The client reads the answer. -/
  | confirm {c : Connection} {events rest : List RecvEvent} {ok : Bool}
      (hclient : c.client = .greeted) (hevents : available events <+: c.session.toClient)
      (hread : confirmHandshake events = (ok, rest)) :
      Step c { c with
        client := if ok then .ready else .failed
        session := { c.session with
          toClient := c.session.toClient.drop (consumed events rest).length } }
  /-- The server goes away. -/
  | gone {c : Connection} :
      Step c { c with server := .closed, session := { c.session with serverOpen := false } }
  /-- A step of the client in the session, behind `Connect`. -/
  | clientStep {c : Connection} {s : Session} (hclient : c.client = .ready)
      (hstep : Session.Step c.session s) (hserver : s.services = c.session.services) :
      Step c { c with session := s }
  /-- A step of the server in the session, in the loop over the requests. -/
  | serverStep {c : Connection} {s : Session} (hserver : c.server = .serving)
      (hstep : Session.Step c.session s) (hreports : s.reports = c.session.reports)
      (hpending : s.pending = c.session.pending) : Step c { c with session := s }

/-- The states of a connection. -/
def Connection.Reachable (c : Connection) : Prop :=
  Relation.ReflTransGen Connection.Step {} c

/-! ## The handshake in flight -/

/-- A session in which nothing has happened yet, with these bytes on their way. -/
def fresh (serverOpen : Bool) (toServer toClient : Bytes) : Session :=
  { serverOpen := serverOpen, toServer := toServer, toClient := toClient }

/-- What is on its way, by how far the two parties have got. -/
inductive Connection.Inv : Connection → Prop where
  /-- The client has sent nothing. -/
  | connecting {server : Serving} {serverOpen : Bool} (hserver : server ≠ .serving) :
      Inv ⟨.connecting, server, fresh serverOpen [] []⟩
  /-- The client has sent the message. It is on its way until the server has read it, and if the
  answer is whole, the server has read it. -/
  | greeted {server : Serving} {serverOpen : Bool} {toServer toClient : Bytes}
      (hwaiting : server = .waiting → toServer = handshakeBytes ∧ toClient = [])
      (hserving : server = .serving → toServer = []) (hanswer : toClient <+: handshakeBytes)
      (hwhole : toClient = handshakeBytes → server ≠ .waiting ∧ toServer = []) :
      Inv ⟨.greeted, server, fresh serverOpen toServer toClient⟩
  | ready {server : Serving} {s : Session} (hserver : server ≠ .waiting)
      (hsession : s.Reachable) : Inv ⟨.ready, server, s⟩
  /-- The client sends nothing any more, so the server finds no request. -/
  | failed {server : Serving} {serverOpen : Bool} {toServer toClient : Bytes}
      (hwaiting : server = .waiting → toServer <+: handshakeBytes)
      (hserving : server = .serving → toServer = []) :
      Inv ⟨.failed, server, fresh serverOpen toServer toClient⟩

section Steps

variable {toServer toClient : Bytes} {events rest : List RecvEvent}

/-- A reader that has taken the message from a stream in which there was no more has emptied it. -/
theorem drop_handshake (hstream : toServer <+: handshakeBytes)
    (hevents : available events <+: toServer)
    (hread : available events = handshakeBytes ++ available rest) :
    toServer = handshakeBytes ∧ toServer.drop (consumed events rest).length = [] := by
  have hwhole : toServer = handshakeBytes := by
    refine hstream.eq_of_length_le ?_
    have hle := hevents.length_le
    rw [hread, List.length_append] at hle
    omega
  refine ⟨hwhole, ?_⟩
  have hconsumed : (consumed events rest).length = handshakeBytes.length := by
    rw [consumed, hread, List.length_append, Nat.add_sub_cancel, List.take_left]
  rw [hwhole, hconsumed, List.drop_length]

/-- Of a stream that holds at most the message, the server reads the whole message or refuses it
and writes nothing. -/
theorem accept_cases {schedule : List SendEvent} {errno : Bytes} {ok : Bool} {sink : Sink}
    (hstream : toServer <+: handshakeBytes) (hevents : available events <+: toServer)
    (hread : readAndCheckHandshake events ⟨schedule, [], errno⟩ = (ok, rest, sink)) :
    (toServer = handshakeBytes ∧ toServer.drop (consumed events rest).length = [] ∧
      sink.written <+: handshakeBytes) ∨ (ok = false ∧ sink.written = []) := by
  obtain ⟨haccept, hrefuse⟩ := readAndCheckHandshake_exact events ⟨schedule, [], errno⟩
  by_cases hstarts : handshakeBytes <+: available events
  · obtain ⟨rest', havail, heq⟩ := haccept hstarts
    rw [hread] at heq
    obtain ⟨rfl, rfl, rfl⟩ : ok = _ ∧ rest = rest' ∧ sink = _ := by simpa using heq
    obtain ⟨hwhole, hempty⟩ := drop_handshake hstream hevents havail
    refine .inl ⟨hwhole, hempty, ?_⟩
    cases hwrite : writeHandshakeBytes ⟨schedule, [], errno⟩ with
    | mk ok sink =>
      cases ok with
      | true =>
        rw [writeHandshakeBytes_eq_true hwrite]
        exact List.prefix_refl _
      | false =>
        obtain ⟨front, hfront, hle, -⟩ := writeHandshakeBytes_eq_false hwrite
        rwa [hfront, List.nil_append]
  · obtain ⟨rest', heq⟩ := hrefuse hstarts
    rw [hread] at heq
    obtain ⟨rfl, rfl, rfl⟩ : ok = false ∧ rest = rest' ∧ sink = _ := by simpa using heq
    exact .inr ⟨rfl, rfl⟩

/-- Without a byte to read, the server can only go away. -/
theorem serverStep_fresh {serverOpen : Bool} {s : Session}
    (hstep : Session.Step (fresh serverOpen [] toClient) s) (hreports : s.reports = [])
    (hpending : s.pending = none) : s = fresh false [] toClient := by
  cases hstep with
  | refused sql options schedule errno hidle hsend => simp [fresh] at hreports
  | requested sql options schedule errno hidle hsend => simp at hpending
  | responded hcall hevents hread => simp [fresh] at hcall
  | @served events rest request outcome faults schedule errno ok sink _ hevents hread _ =>
    obtain ⟨-, havail⟩ := readFrameInternal_eq_ok (readFrame_eq_some.mp hread)
    have hnil : available events = [] := List.prefix_nil.mp hevents
    rw [hnil] at havail
    exact absurd (List.append_eq_nil_iff.mp havail.symm).1 request.bytes_ne_nil
  | hungUp => rfl

theorem reachable_fresh (serverOpen : Bool) : (fresh serverOpen [] []).Reachable := by
  cases serverOpen with
  | true => exact .refl
  | false => exact .single .hungUp

end Steps

namespace Connection

variable {c c' : Connection}

theorem Inv.greet (h : c.Inv) (hclient : c.client = .connecting) {schedule : List SendEvent}
    {errno : Bytes} {ok : Bool} {sink : Sink}
    (hwrite : writeHandshakeBytes ⟨schedule, [], errno⟩ = (ok, sink)) :
    Inv { c with
      client := if ok then .greeted else .failed
      session := { c.session with toServer := c.session.toServer ++ sink.written } } := by
  cases h with
  | @connecting server serverOpen hserver =>
    cases ok with
    | true =>
      have hwritten := writeHandshakeBytes_eq_true hwrite
      refine .greeted (fun _ => ⟨hwritten, rfl⟩) (fun hserving => absurd hserving hserver)
        List.nil_prefix fun hnil => absurd hnil.symm handshakeBytes_ne
    | false =>
      obtain ⟨front, hfront, hle, -⟩ := writeHandshakeBytes_eq_false hwrite
      refine .failed (fun _ => ?_) fun hserving => absurd hserving hserver
      rwa [hfront]
  | greeted | ready | failed => simp at hclient

theorem Inv.accept (h : c.Inv) (hserver : c.server = .waiting) {events rest : List RecvEvent}
    {schedule : List SendEvent} {errno : Bytes} {ok : Bool} {sink : Sink}
    (hevents : available events <+: c.session.toServer)
    (hread : readAndCheckHandshake events ⟨schedule, [], errno⟩ = (ok, rest, sink)) :
    Inv { c with
      server := if ok then .serving else .closed
      session := { c.session with
        serverOpen := ok
        toServer := c.session.toServer.drop (consumed events rest).length
        toClient := c.session.toClient ++ sink.written } } := by
  have hnotWaiting : (if ok then Serving.serving else .closed) ≠ .waiting := by
    cases ok <;> decide
  cases h with
  | @connecting _ serverOpen _ =>
    -- The stream is empty, so there is no message in it.
    rcases accept_cases List.nil_prefix hevents hread with ⟨hnil, -⟩ | ⟨rfl, hwritten⟩
    · exact absurd hnil.symm handshakeBytes_ne
    · show Inv ⟨.connecting, .closed, fresh false (List.drop _ []) ([] ++ sink.written)⟩
      rw [hwritten, List.drop_nil]
      exact .connecting (by decide)
  | greeted hwaiting _ _ _ =>
    obtain ⟨rfl, rfl⟩ := hwaiting hserver
    rcases accept_cases (List.prefix_refl _) hevents hread with
      ⟨-, hempty, hwritten⟩ | ⟨rfl, hwritten⟩
    · exact .greeted (fun hwait => absurd hwait hnotWaiting) (fun _ => hempty) hwritten
        fun _ => ⟨hnotWaiting, hempty⟩
    · refine .greeted nofun nofun ?_ fun hanswer => ?_
      · rw [hwritten]
        exact List.nil_prefix
      · rw [hwritten] at hanswer
        exact absurd hanswer.symm handshakeBytes_ne
  | ready hready _ => exact absurd hserver hready
  | failed hwaiting _ =>
    rcases accept_cases (hwaiting hserver) hevents hread with ⟨-, hempty, -⟩ | ⟨rfl, -⟩
    · exact .failed (fun hwait => absurd hwait hnotWaiting) fun _ => hempty
    · exact .failed nofun nofun

theorem Inv.confirm (h : c.Inv) (hclient : c.client = .greeted) {events rest : List RecvEvent}
    {ok : Bool} (hevents : available events <+: c.session.toClient)
    (hread : confirmHandshake events = (ok, rest)) :
    Inv { c with
      client := if ok then .ready else .failed
      session := { c.session with
        toClient := c.session.toClient.drop (consumed events rest).length } } := by
  cases h with
  | connecting => simp at hclient
  | @greeted server serverOpen toServer toClient hwaiting hserving hanswer hwhole =>
    cases ok with
    | true =>
      obtain ⟨hecho, hempty⟩ :=
        drop_handshake hanswer hevents (confirmHandshake_eq_true hread)
      obtain ⟨hserver, rfl⟩ := hwhole hecho
      refine .ready hserver ?_
      show (fresh serverOpen [] (toClient.drop (consumed events rest).length)).Reachable
      rw [hempty]
      exact reachable_fresh serverOpen
    | false => exact .failed (fun hwait => (hwaiting hwait).1 ▸ List.prefix_refl _) hserving
  | ready | failed => simp at hclient

theorem Inv.gone (h : c.Inv) :
    Inv { c with server := .closed, session := { c.session with serverOpen := false } } := by
  cases h with
  | connecting _ => exact .connecting (by decide)
  | greeted _ _ hanswer hwhole =>
    exact .greeted nofun nofun hanswer fun hecho => ⟨by decide, (hwhole hecho).2⟩
  | ready _ hsession => exact .ready (by decide) (hsession.tail .hungUp)
  | failed _ _ => exact .failed nofun nofun

theorem Inv.serverStep (h : c.Inv) (hserver : c.server = .serving) {s : Session}
    (hstep : Session.Step c.session s) (hreports : s.reports = c.session.reports)
    (hpending : s.pending = c.session.pending) : Inv { c with session := s } := by
  cases h with
  | connecting hnot => exact absurd hserver hnot
  | greeted hwaiting hserving hanswer hwhole =>
    obtain rfl := hserving hserver
    obtain rfl := serverStep_fresh hstep hreports hpending
    exact .greeted hwaiting hserving hanswer hwhole
  | ready hnot hsession => exact .ready hnot (hsession.tail hstep)
  | failed hwaiting hserving =>
    obtain rfl := hserving hserver
    obtain rfl := serverStep_fresh hstep hreports hpending
    exact .failed hwaiting hserving

theorem Inv.step (h : c.Inv) (hstep : Step c c') : c'.Inv := by
  cases hstep with
  | greet schedule errno hclient hwrite => exact h.greet hclient hwrite
  | accept schedule errno hserver hevents hread => exact h.accept hserver hevents hread
  | confirm hclient hevents hread => exact h.confirm hclient hevents hread
  | gone => exact h.gone
  | clientStep hclient hstep hservices =>
    cases h with
    | ready hserver hsession => exact .ready hserver (hsession.tail hstep)
    | connecting | greeted | failed => simp at hclient
  | serverStep hserver hstep hreports hpending => exact h.serverStep hserver hstep hreports hpending

theorem Reachable.inv (h : c.Reachable) : c.Inv := by
  induction h with
  | refl => exact .connecting (by decide)
  | tail _ hstep ih => exact ih.step hstep

end Connection

end Rucbase.Server
