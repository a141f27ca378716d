import Rucbase.Net.ExecStream
import Rucbase.Server.Send

/-!
# A connection

The two parties of a connection after the handshake: `Client::Execute` (`src/net/client.cpp`) on one
side, and `handle_client`, `handle_request` and `execute_sql` (`src/server/server.cpp`) on the
other.

A session holds the bytes that each party has written and the other has not read. A party writes
when its turn comes, as far as its `sendmsg` calls go, and reads some of the bytes in flight, as its
`recv` calls return them; a call that has not come to its end is a step that has not been taken. Any
call may fail, and the server may go away, at any point. Calls of `Execute` exclude each other by a
mutex, so they follow one another.

What has happened is kept in two logs: the calls of `Execute` that have returned, and the requests
that the server has read.
-/

namespace Rucbase.Server

open Lib Wire

/-! ## The server -/

/-- The exceptions that may leave the body of `execute_sql`. -/
inductive Thrown where
  | transactionAbort
  | rmdbError (what : Bytes)
  | stdException (what : Bytes)
  | other
  deriving DecidableEq, Repr

/-- How a statement comes to its end, before anything is sent. -/
inductive Outcome where
  | parseError (diagnostic : Bytes)
  | threw (thrown : Thrown)
  | result (ops : List QueryResultBuilder.Op)

/-- `send_error` where no handler waits for what it throws. -/
def writeError (diagnostic : Bytes) (sink : Sink) : Bool × Sink :=
  writeFrame kTagError 0 (errorPayload diagnostic) sink

/-- The diagnostic of an exception that is not the engine's own. -/
def internalError (what : Bytes) : Bytes := text "internal server error: " ++ what

/-- The handlers of `execute_sql`. What none of them catches ends the process. -/
def handle (thrown : Thrown) (sink : Sink) : Bool × Sink :=
  match thrown with
  | .transactionAbort => writeFrame kTagTransactionAbort 0 (text "abort") sink
  | .rmdbError what => writeError what sink
  | .stdException what => writeError (internalError what) sink
  -- No handler catches it.
  | .other => (false, sink)

/-- The sending code throws exceptions of the library only. -/
def Sent.toExcept : Sent → Except Thrown Bool
  | .returned ok => .ok ok
  | .threw what => .error (.stdException what)

/-- The body of `execute_sql`. -/
def executeBody (faults : Faults) (outcome : Outcome) (sink : Sink) : Except Thrown Bool × Sink :=
  match outcome with
  | .parseError diagnostic =>
    let (sent, sink) := sendError faults 0 diagnostic sink
    (sent.toExcept, sink)
  | .threw thrown => (.error thrown, sink)
  | .result ops =>
    let (sent, sink) := sendStatementResult faults (QueryResultBuilder.build ops) sink
    (sent.toExcept, sink)

/-- `execute_sql`: whether the connection goes on. -/
def executeSql (faults : Faults) (outcome : Outcome) (sink : Sink) : Bool × Sink :=
  match executeBody faults outcome sink with
  | (.ok ok, sink) => (ok, sink)
  -- The handlers run behind whatever frames the body has already written.
  | (.error thrown, sink) => handle thrown sink

/-- `handle_request`: whether the connection goes on. -/
def handleRequest (faults : Faults) (outcome : Outcome) (request : Frame) (sink : Sink) :
    Bool × Sink :=
  if request.flags ≠ 0 ∨ request.tag ≠ kTagExecStream then
    writeError (text "unsupported request (only EXEC_STREAM is implemented)") sink
  else if request.payload = [] then writeError (text "empty SQL") sink
  else executeSql faults outcome sink

/-! ## The session -/

/-- A call of `Execute` that waits for its response. -/
structure Pending where
  sql : Bytes
  options : ExecuteOptions
  sent : Bytes

/-- A call of `Execute` that has returned, with the bytes that it sent and those that it read. -/
structure Report where
  sql : Bytes
  options : ExecuteOptions
  result : ExecuteResult
  sent : Bytes
  received : Bytes

/-- A request that the server has read, with the bytes that it wrote for it, and whether the
connection went on. -/
structure Service where
  request : Frame
  outcome : Outcome
  written : Bytes
  goesOn : Bool

/-- The state of a connection. -/
structure Session where
  clientOpen : Bool := true
  pending : Option Pending := none
  serverOpen : Bool := true
  toServer : Bytes := []
  toClient : Bytes := []
  reports : List Report := []
  services : List Service := []

/-- The bytes that a reader took off the front of what was available. -/
def consumed (events rest : List RecvEvent) : Bytes :=
  (available events).take ((available events).length - (available rest).length)

/-- One step of a connection. -/
inductive Session.Step : Session → Session → Prop where
  /-- `Execute` returns without waiting for a response: the connection is closed, the request is
  refused, or sending it fails. -/
  | refused {s : Session} (sql : Bytes) (options : ExecuteOptions) (schedule : List SendEvent)
      (errno : Bytes) {result : ExecuteResult} {sink : Sink} (hidle : s.pending = none)
      (hsend : sendRequest s.clientOpen sql ⟨schedule, [], errno⟩ = (.error result, sink)) :
      Step s { s with
        clientOpen := s.clientOpen && result.connectionReusable
        toServer := s.toServer ++ sink.written
        reports := s.reports ++ [⟨sql, options, result, sink.written, []⟩] }
  /-- `Execute` sends its request. -/
  | requested {s : Session} (sql : Bytes) (options : ExecuteOptions) (schedule : List SendEvent)
      (errno : Bytes) {sink : Sink} (hidle : s.pending = none)
      (hsend : sendRequest s.clientOpen sql ⟨schedule, [], errno⟩ = (.ok (), sink)) :
      Step s { s with
        pending := some ⟨sql, options, sink.written⟩
        toServer := s.toServer ++ sink.written }
  /-- `Execute` reads its response, and closes the connection if the result says so. -/
  | responded {s : Session} {call : Pending} {events rest : List RecvEvent} {ended : Exchange}
      (hcall : s.pending = some call) (hevents : available events <+: s.toClient)
      (hread : receive call.options {} events = (ended, rest)) :
      Step s { s with
        clientOpen := s.clientOpen && ended.result.connectionReusable
        pending := none
        toClient := s.toClient.drop (consumed events rest).length
        reports := s.reports ++
          [⟨call.sql, call.options, ended.result, call.sent, consumed events rest⟩] }
  /-- The server reads a request and serves it. -/
  | served {s : Session} {events rest : List RecvEvent} {request : Frame} (outcome : Outcome)
      (faults : Faults) (schedule : List SendEvent) (errno : Bytes) {ok : Bool} {sink : Sink}
      (hopen : s.serverOpen = true) (hevents : available events <+: s.toServer)
      (hread : readFrame events = (some request, rest))
      (hserve : handleRequest faults outcome request ⟨schedule, [], errno⟩ = (ok, sink)) :
      Step s { s with
        serverOpen := ok
        toServer := s.toServer.drop request.bytes.length
        toClient := s.toClient ++ sink.written
        services := s.services ++ [⟨request, outcome, sink.written, ok⟩] }
  /-- The server ends the connection: it cannot read a request, is stopped, or dies. -/
  | hungUp {s : Session} : Step s { s with serverOpen := false }

/-- The sessions of a connection. -/
def Session.Reachable (s : Session) : Prop := Relation.ReflTransGen Session.Step {} s

end Rucbase.Server
