import Rucbase.Server.Requests

/-!
# Requests and responses stay paired

The server writes one response for each request that it serves to the end, and a part of one for the
request at which it ends the connection. Along every run of a connection the logs of the two parties
then stay paired (`Session.Inv`): the bytes in flight are those of the requests that were sent and
not read and of the responses that were written and not read, of which there is at most one.
-/

namespace Rucbase.Server

open Lib Wire

/-! ## The invariant -/

/-- The call has sent its request frame. -/
def Report.SentFrame (report : Report) : Prop := report.sent = (requestFrame report.sql).bytes

instance : DecidablePred Report.SentFrame := fun report =>
  inferInstanceAs (Decidable (report.sent = _))

/-- The calls that have sent a request frame, in order. -/
def senders (reports : List Report) : List Report := reports.filter (·.SentFrame)

/-- The server has written one response to the request. -/
def Service.Answered (service : Service) : Prop :=
  ∃ response : Response,
    Serves service.request service.outcome response ∧ service.written = response.bytes

/-- The server's work on a request: one response, or a strict part of one at the end of the
connection. -/
def Service.Spec (service : Service) : Prop :=
  (service.goesOn = true → service.Answered) ∧
  (service.goesOn = false → ∃ response : Response,
    service.written <+: response.bytes ∧ service.written ≠ response.bytes)

theorem Service.spec_of_handleRequest {faults : Faults} {outcome : Outcome} {request : Frame}
    {schedule : List SendEvent} {errno : Bytes} {ok : Bool} {sink : Sink}
    (h : handleRequest faults outcome request ⟨schedule, [], errno⟩ = (ok, sink)) :
    Service.Spec ⟨request, outcome, sink.written, ok⟩ := by
  have hempty : (Sink.mk schedule [] errno).written = [] := rfl
  have hreply := handleRequest_spec faults outcome request hempty
  rw [h] at hreply
  constructor
  · rintro (rfl : ok = true)
    obtain ⟨response, hserves, hwritten⟩ := hreply
    exact ⟨response, hserves, hwritten⟩
  · rintro (rfl : ok = false)
    obtain ⟨response, front, hfront, hstarts, hne⟩ := hreply
    rw [List.nil_append] at hfront
    rw [← hfront] at hstarts hne
    exact ⟨response, hstarts, hne⟩

/-- The call reports how the server answered its request. -/
def Reports (report : Report) (service : Service) : Prop :=
  service.request = requestFrame report.sql ∧ ∃ response : Response,
    Serves service.request service.outcome response ∧ service.written = response.bytes ∧
    report.result = (response.ended report.options).result

/-- The bytes that calls have read. -/
def received (reports : List Report) : Bytes := (reports.map Report.received).flatten

/-- The bytes that the server has written for requests. -/
def written (services : List Service) : Bytes := (services.map Service.written).flatten

/-- The requests that were sent, in order. -/
def Session.issued (s : Session) : List Bytes :=
  (senders s.reports).map Report.sql ++ (s.pending.map Pending.sql).toList

/-- A strict part of a request frame, or nothing. -/
def Cut (part : Bytes) : Prop :=
  ∃ sql, (requestFrame sql).WellFormed ∧ part <+: (requestFrame sql).bytes ∧
    part ≠ (requestFrame sql).bytes

/-- The calls have read all of the responses to their requests. -/
def AtBoundary (reports : List Report) (services : List Service) : Prop :=
  (senders reports).length ≤ services.length ∧
    received reports = written (services.take (senders reports).length)

/-- What holds along every run of a connection. -/
structure Session.Inv (s : Session) : Prop where
  pending_sent : ∀ call, s.pending = some call →
    s.clientOpen = true ∧ call.sent = (requestFrame call.sql).bytes
  wellFormed : ∀ sql ∈ s.issued, (requestFrame sql).WellFormed
  requests : s.services.map Service.request <+: s.issued.map requestFrame
  issued_le : s.issued.length ≤ s.services.length + 1
  toServer : ∃ part, s.toServer =
      (s.issued.drop s.services.length).flatMap (fun sql => (requestFrame sql).bytes) ++ part ∧
    Cut part ∧ (s.clientOpen = true → part = [])
  idle : s.clientOpen = true → s.pending = none → s.services.length ≤ (senders s.reports).length
  toClient : s.clientOpen = true →
    s.toClient = written (s.services.drop (senders s.reports).length)
  position : s.clientOpen = true → AtBoundary s.reports s.services
  closed : s.clientOpen = s.reports.all (·.result.connectionReusable)
  served : ∀ service ∈ s.services, service.Spec
  ended : s.serverOpen = true → ∀ service ∈ s.services, service.goesOn = true
  ended_last : ∀ service ∈ s.services.dropLast, service.goesOn = true
  paired : ∀ (k : ℕ) (report : Report), (senders s.reports)[k]? = some report →
    report.result.status = .transportError ∨
      ∃ service, s.services[k]? = some service ∧ Reports report service
  boundary : ∀ (k : ℕ) (report : Report), s.reports[k]? = some report →
    report.result.connectionReusable = true → AtBoundary (s.reports.take (k + 1)) s.services
  silent : s.reports.Pairwise fun earlier later =>
    earlier.result.connectionReusable = false →
      later.result.status = .transportError ∧ later.sent = [] ∧ later.received = []

section Logs

variable {report : Report} {reports : List Report}

theorem senders_append_of_not (h : ¬ report.SentFrame) :
    senders (reports ++ [report]) = senders reports := by
  simp [senders, h]

theorem senders_append_of_sent (h : report.SentFrame) :
    senders (reports ++ [report]) = senders reports ++ [report] := by
  simp [senders, h]

theorem received_append (reports reports' : List Report) :
    received (reports ++ reports') = received reports ++ received reports' := by
  simp [received]

theorem written_append (services services' : List Service) :
    written (services ++ services') = written services ++ written services' := by
  simp [written]

/-- A call that sends and reads nothing leaves the calls at the boundary. -/
theorem AtBoundary.silent {services : List Service} (h : AtBoundary reports services)
    (hsent : ¬ report.SentFrame) (hreceived : report.received = []) :
    AtBoundary (reports ++ [report]) services := by
  have hnone : received [report] = [] := by simp [received, hreceived]
  rw [AtBoundary, senders_append_of_not hsent, received_append, hnone, List.append_nil]
  exact h

/-- A request that is served later leaves the calls at the boundary. -/
theorem AtBoundary.append {services : List Service} (h : AtBoundary reports services)
    (more : List Service) : AtBoundary reports (services ++ more) := by
  obtain ⟨hle, heq⟩ := h
  refine ⟨hle.trans (by simp), ?_⟩
  rw [List.take_append_of_le_length hle, heq]

theorem cut_nil : Cut [] := by
  refine ⟨[], by decide, List.nil_prefix, ?_⟩
  exact (requestFrame []).bytes_ne_nil.symm

/-- What holds at every place of a list and of one more entry. -/
theorem forall_getElem?_concat {α : Type} {l : List α} {a : α} {P : ℕ → α → Prop}
    (hold : ∀ k x, l[k]? = some x → P k x) (hnew : P l.length a) :
    ∀ k x, (l ++ [a])[k]? = some x → P k x := by
  intro k x hk
  rcases Nat.lt_or_ge k l.length with hlt | hge
  · rw [List.getElem?_append_left hlt] at hk
    exact hold k x hk
  · rw [List.getElem?_append_right hge, List.getElem?_singleton] at hk
    split_ifs at hk with hzero
    obtain rfl := Option.some.inj hk
    obtain rfl : k = l.length := by omega
    exact hnew

/-- The boundaries of the calls made before stay where they are when a call returns. -/
theorem boundary_append {services : List Service}
    (h : ∀ (k : ℕ) (r : Report), reports[k]? = some r → r.result.connectionReusable = true →
      AtBoundary (reports.take (k + 1)) services)
    (hnew : report.result.connectionReusable = true → AtBoundary (reports ++ [report]) services) :
    ∀ (k : ℕ) (r : Report), (reports ++ [report])[k]? = some r →
      r.result.connectionReusable = true →
      AtBoundary ((reports ++ [report]).take (k + 1)) services := by
  refine forall_getElem?_concat ?_ ?_
  · intro k r hk hr
    obtain ⟨hlt, -⟩ := List.getElem?_eq_some_iff.mp hk
    rw [List.take_append_of_le_length hlt]
    exact h k r hk hr
  · intro hr
    rw [List.take_of_length_le (by simp)]
    exact hnew hr

end Logs

theorem Session.inv_initial : Session.Inv {} where
  pending_sent := by simp
  wellFormed := by simp [Session.issued, senders]
  requests := by simp
  issued_le := by simp [Session.issued, senders]
  toServer := ⟨[], by simp [Session.issued, senders], cut_nil, fun _ => rfl⟩
  idle := by simp
  toClient := by simp [written]
  position := fun _ => ⟨le_rfl, rfl⟩
  closed := by simp
  served := by simp
  ended := by simp
  ended_last := by simp
  paired := by simp [senders]
  boundary := by simp
  silent := by simp

namespace Session.Inv

variable {s : Session}

/-- While the client is idle and open, every request that was sent has been served. -/
theorem length_services (h : s.Inv) (hopen : s.clientOpen = true) (hidle : s.pending = none) :
    s.services.length = (senders s.reports).length :=
  le_antisymm (h.idle hopen hidle) (h.position hopen).1

theorem issued_idle (hidle : s.pending = none) :
    s.issued = (senders s.reports).map Report.sql := by
  simp [issued, hidle]

theorem reusable_of_open (h : s.Inv) (hopen : s.clientOpen = true) {report : Report}
    (hmem : report ∈ s.reports) : report.result.connectionReusable = true := by
  rw [h.closed, List.all_eq_true] at hopen
  exact hopen report hmem

variable {errno : Bytes} {schedule : List SendEvent} {sink : Sink} {call : Pending}
  {ended : Exchange} {events rest : List RecvEvent}

/-- A call that does not send a frame changes nothing but the log and, if it fails half way, what
the server may still read. -/
theorem refused (h : s.Inv) (hidle : s.pending = none) {sql : Bytes} {options : ExecuteOptions}
    {result : ExecuteResult}
    (hsend : sendRequest s.clientOpen sql ⟨schedule, [], errno⟩ = (.error result, sink)) :
    Session.Inv { s with
      clientOpen := s.clientOpen && result.connectionReusable
      toServer := s.toServer ++ sink.written
      reports := s.reports ++ [⟨sql, options, result, sink.written, []⟩] } := by
  have hcases := sendRequest_eq_error hsend
  have hnot : ¬ (Report.mk sql options result sink.written []).SentFrame := by
    have hne := (requestFrame sql).bytes_ne_nil
    rcases hcases with ⟨-, -, rfl⟩ | ⟨-, -, rfl⟩ | ⟨-, -, -, front, hfront, -, hstrict⟩
    · exact hne.symm
    · exact hne.symm
    · rw [Report.SentFrame]
      simpa [hfront] using hstrict
  have hsenders : senders (s.reports ++ [⟨sql, options, result, sink.written, []⟩]) =
      senders s.reports := senders_append_of_not hnot
  have hissued : issued { s with
      clientOpen := s.clientOpen && result.connectionReusable
      toServer := s.toServer ++ sink.written
      reports := s.reports ++ [⟨sql, options, result, sink.written, []⟩] } = s.issued := by
    simp [issued, hsenders]
  have hopen_of : (s.clientOpen && result.connectionReusable) = true → s.clientOpen = true :=
    fun hand => (Bool.and_eq_true _ _ ▸ hand).1
  refine { h with
      pending_sent := by simp [hidle]
      wellFormed := by rw [hissued]; exact h.wellFormed
      requests := by rw [hissued]; exact h.requests
      issued_le := by rw [hissued]; exact h.issued_le
      toServer := ?_
      idle := fun hopen _ => by simpa [hsenders] using h.idle (hopen_of hopen) hidle
      toClient := fun hopen => by simpa [hsenders] using h.toClient (hopen_of hopen)
      position := fun hopen => (h.position (hopen_of hopen)).silent hnot rfl
      closed := by simp [h.closed]
      paired := by simpa [hsenders] using h.paired
      boundary := ?_
      silent := ?_ }
  · obtain ⟨part, hpart, hcut, hempty⟩ := h.toServer
    rw [hissued]
    rcases hcases with ⟨hclosed, -, rfl⟩ | ⟨-, -, rfl⟩ |
      ⟨hopen, hstatus, hwf, front, hfront, hcut', hne⟩
    · exact ⟨part, by simpa using hpart, hcut, by simp [hclosed]⟩
    · exact ⟨part, by simpa using hpart, hcut, fun hopen => hempty (hopen_of hopen)⟩
    · -- Nothing was in flight, and now the part of the request that was written is.
      refine ⟨front, ?_, ⟨sql, hwf, hcut', hne⟩, ?_⟩
      · have hlen := h.length_services hopen hidle
        have hdrop : s.issued.drop s.services.length = [] := by
          rw [issued_idle hidle, List.drop_eq_nil_iff, List.length_map, hlen]
        rw [hdrop, hempty hopen] at hpart
        rw [hdrop]
        simp only [hpart, hfront]
        simp
      · simp [ExecuteResult.connectionReusable, hstatus]
  · refine boundary_append h.boundary fun hreusable => ?_
    have hopen : s.clientOpen = true := by
      rcases hcases with ⟨-, hstatus, -⟩ | ⟨hopen, -⟩ | ⟨hopen, -⟩
      · simp [ExecuteResult.connectionReusable, hstatus] at hreusable
      · exact hopen
      · exact hopen
    exact (h.position hopen).silent hnot rfl
  · rw [List.pairwise_append]
    refine ⟨h.silent, List.pairwise_singleton _ _, ?_⟩
    intro earlier hmem later hlater hbad
    obtain rfl := List.mem_singleton.mp hlater
    rcases hcases with ⟨-, hstatus, rfl⟩ | ⟨hopen, -⟩ | ⟨hopen, -⟩
    · exact ⟨hstatus, rfl, rfl⟩
    · simp [h.reusable_of_open hopen hmem] at hbad
    · simp [h.reusable_of_open hopen hmem] at hbad

/-- A request that is sent is the only one in flight. -/
theorem requested (h : s.Inv) (hidle : s.pending = none) {sql : Bytes} {options : ExecuteOptions}
    (hsend : sendRequest s.clientOpen sql ⟨schedule, [], errno⟩ = (.ok (), sink)) :
    Session.Inv { s with
      pending := some ⟨sql, options, sink.written⟩
      toServer := s.toServer ++ sink.written } := by
  obtain ⟨hopen, hwf, hwritten⟩ := sendRequest_eq_ok hsend
  rw [List.nil_append] at hwritten
  have hissued : issued { s with
      pending := some ⟨sql, options, sink.written⟩
      toServer := s.toServer ++ sink.written } = s.issued ++ [sql] := by
    simp [issued, hidle]
  have hlen : s.issued.length = s.services.length := by
    rw [issued_idle hidle, List.length_map, h.length_services hopen hidle]
  refine { h with
      pending_sent := ?_
      wellFormed := ?_
      requests := ?_
      issued_le := by rw [hissued, List.length_append, hlen, List.length_singleton]
      toServer := ?_
      idle := fun _ hnone => by simp at hnone }
  · intro call hcall
    obtain rfl := Option.some.inj hcall
    exact ⟨hopen, hwritten⟩
  · rw [hissued]
    exact List.forall_mem_append.mpr ⟨h.wellFormed, by simpa using hwf⟩
  · rw [hissued, List.map_append]
    exact h.requests.trans (List.prefix_append _ _)
  · obtain ⟨part, hpart, hcut, hempty⟩ := h.toServer
    have hdrop : s.issued.drop s.services.length = [] := by
      rw [List.drop_eq_nil_iff, hlen]
    have hdrop' : (s.issued ++ [sql]).drop s.services.length = [sql] := by
      rw [← hlen, List.drop_left]
    rw [hdrop, hempty hopen] at hpart
    refine ⟨[], ?_, cut_nil, fun _ => rfl⟩
    rw [hissued, hdrop']
    simp only [hpart, hwritten]
    simp

/-- A call reads all of the response to its request, or its connection fails. -/
theorem response_cases (h : s.Inv) (hcall : s.pending = some call)
    (hevents : available events <+: s.toClient)
    (hread : receive call.options {} events = (ended, rest)) :
    ended.result.status = .transportError ∨
      ∃ service, s.services = s.services.take (senders s.reports).length ++ [service] ∧
        s.toClient = service.written ∧ consumed events rest = service.written ∧
        Reports ⟨call.sql, call.options, ended.result, call.sent, consumed events rest⟩
          service := by
  obtain ⟨hopen, -⟩ := h.pending_sent call hcall
  have hissued : s.issued = (senders s.reports).map Report.sql ++ [call.sql] := by
    simp [issued, hcall]
  have hle := (h.position hopen).1
  have hclient := h.toClient hopen
  have hmost : s.services.length ≤ (senders s.reports).length + 1 := by
    have hlen := h.requests.length_le
    simpa [hissued] using hlen
  have hended : ended = (receive call.options {} events).1 := by rw [hread]
  rcases Nat.lt_or_ge (senders s.reports).length s.services.length with hlt | hge
  · obtain ⟨service, hservice⟩ :
        ∃ service, s.services.drop (senders s.reports).length = [service] := by
      rw [← List.length_eq_one_iff, List.length_drop]
      omega
    have hsplit : s.services = s.services.take (senders s.reports).length ++ [service] := by
      rw [← hservice, List.take_append_drop]
    have hmem : service ∈ s.services := by
      rw [hsplit]
      simp
    rw [hservice, written, List.map_singleton, List.flatten_singleton] at hclient
    rw [hclient] at hevents
    cases hgoes : service.goesOn with
    | false =>
      -- What the server wrote before it ended the connection breaks off.
      obtain ⟨response, hpart, hne⟩ := (h.served service hmem).2 hgoes
      left
      rw [hended]
      apply receive_of_cut call.options response (hevents.trans hpart)
      intro heq
      rw [heq] at hevents
      exact hne (hpart.eq_of_length (le_antisymm hpart.length_le hevents.length_le))
    | true =>
      obtain ⟨response, hserves, hwritten⟩ := (h.served service hmem).1 hgoes
      rw [hwritten] at hevents
      by_cases hall : available events = response.bytes
      · right
        have hall' : available events = response.bytes ++ [] := by rw [hall, List.append_nil]
        obtain ⟨rest', hread', hrest'⟩ := receive_of_response call.options response hall'
        rw [hread] at hread'
        obtain ⟨rfl, rfl⟩ := Prod.mk.inj hread'
        have hconsumed : consumed events rest = service.written := by
          rw [consumed, hrest', hall, hwritten]
          simp
        have hrequest : service.request = requestFrame call.sql := by
          have hstarts := h.requests
          rw [hissued, hsplit] at hstarts
          have heq := hstarts.eq_of_length (by
            rw [← hsplit]
            simp
            omega)
          rw [List.map_append, List.map_append] at heq
          have hlast := List.append_inj_right' heq rfl
          simpa using hlast
        exact ⟨service, hsplit, hclient, hconsumed, hrequest, response, hserves, hwritten, rfl⟩
      · left
        rw [hended]
        exact receive_of_cut call.options response hevents hall
  · -- The server has not served the request: there is nothing to read.
    left
    rw [List.drop_eq_nil_of_le hge] at hclient
    have hnone : available events = [] := by
      rw [hclient] at hevents
      exact List.prefix_nil.mp hevents
    rw [hended]
    apply receive_of_cut call.options .commandOk
    · rw [hnone]
      exact List.nil_prefix
    · rw [hnone]
      decide

/-- A connection that can be used again has read all of one response. -/
theorem reads_all (h : s.Inv) (hcall : s.pending = some call)
    (hevents : available events <+: s.toClient)
    (hread : receive call.options {} events = (ended, rest))
    (hreusable : ended.result.connectionReusable = true) :
    ∃ service, s.services = s.services.take (senders s.reports).length ++ [service] ∧
      s.toClient = service.written ∧ consumed events rest = service.written := by
  rcases h.response_cases hcall hevents hread with
    hstatus | ⟨service, hsplit, hclient, hconsumed, -⟩
  · simp [ExecuteResult.connectionReusable, hstatus] at hreusable
  · exact ⟨service, hsplit, hclient, hconsumed⟩

/-- A call that reads its response leaves the stream at the end of that response. -/
theorem responded (h : s.Inv) (hcall : s.pending = some call)
    (hevents : available events <+: s.toClient)
    (hread : receive call.options {} events = (ended, rest)) :
    Session.Inv { s with
      clientOpen := s.clientOpen && ended.result.connectionReusable
      pending := none
      toClient := s.toClient.drop (consumed events rest).length
      reports := s.reports ++
        [⟨call.sql, call.options, ended.result, call.sent, consumed events rest⟩] } := by
  obtain ⟨hopen, hsent⟩ := h.pending_sent call hcall
  have hcases := h.response_cases hcall hevents hread
  generalize hreport :
    Report.mk call.sql call.options ended.result call.sent (consumed events rest) = report
      at hcases ⊢
  have hsql : report.sql = call.sql := by rw [← hreport]
  have hresult : report.result = ended.result := by rw [← hreport]
  have hreceived : report.received = consumed events rest := by rw [← hreport]
  have hsenders : senders (s.reports ++ [report]) = senders s.reports ++ [report] := by
    apply senders_append_of_sent
    rw [← hreport]
    exact hsent
  have hissued : issued { s with
      clientOpen := s.clientOpen && ended.result.connectionReusable
      pending := none
      toClient := s.toClient.drop (consumed events rest).length
      reports := s.reports ++ [report] } = s.issued := by
    simp [issued, hsenders, hcall, hsql]
  have hread_all := h.reads_all hcall hevents hread
  have hlength : ended.result.connectionReusable = true →
      s.services.length = (senders (s.reports ++ [report])).length := by
    intro hreusable
    obtain ⟨service, hsplit, -⟩ := hread_all hreusable
    have hle := (h.position hopen).1
    rw [hsenders, hsplit, List.length_append, List.length_append, List.length_take,
      Nat.min_eq_left hle, List.length_singleton, List.length_singleton]
  have hposition : ended.result.connectionReusable = true →
      AtBoundary (s.reports ++ [report]) s.services := by
    intro hreusable
    refine ⟨(hlength hreusable).ge, ?_⟩
    obtain ⟨service, hsplit, -, hconsumed⟩ := hread_all hreusable
    calc received (s.reports ++ [report])
        = received s.reports ++ service.written := by
          rw [received_append, ← hconsumed, ← hreceived]
          simp [received]
      _ = written (s.services.take (senders s.reports).length ++ [service]) := by
          rw [(h.position hopen).2, written_append]
          simp [written]
      _ = written (s.services.take (senders (s.reports ++ [report])).length) := by
          rw [← hsplit, ← hlength hreusable, List.take_length]
  have hreusable_of : (s.clientOpen && ended.result.connectionReusable) = true →
      ended.result.connectionReusable = true :=
    fun hand => (Bool.and_eq_true _ _ ▸ hand).2
  refine { h with
      pending_sent := by simp
      wellFormed := by rw [hissued]; exact h.wellFormed
      requests := by rw [hissued]; exact h.requests
      issued_le := by rw [hissued]; exact h.issued_le
      toServer := ?_
      idle := fun hand _ => (hlength (hreusable_of hand)).le
      toClient := ?_
      position := fun hand => hposition (hreusable_of hand)
      closed := by simp [h.closed, hresult]
      paired := ?_
      boundary := ?_
      silent := ?_ }
  · obtain ⟨part, hpart, hcut, hempty⟩ := h.toServer
    rw [hissued]
    exact ⟨part, hpart, hcut, fun _ => hempty hopen⟩
  · intro hand
    obtain ⟨service, -, hclient, hconsumed⟩ := hread_all (hreusable_of hand)
    rw [← hlength (hreusable_of hand), List.drop_length]
    simp [hclient, hconsumed, written]
  · rw [hsenders]
    refine forall_getElem?_concat h.paired ?_
    rcases hcases with hstatus | ⟨service, hsplit, -, -, hreports⟩
    · left
      rw [hresult]
      exact hstatus
    · right
      refine ⟨service, ?_, hreports⟩
      have hlen :
          (s.services.take (senders s.reports).length).length = (senders s.reports).length := by
        rw [List.length_take, Nat.min_eq_left (h.position hopen).1]
      have hlast : (s.services.take (senders s.reports).length ++ [service])[
          (s.services.take (senders s.reports).length).length]? = some service :=
        List.getElem?_concat_length
      rw [hlen, ← hsplit] at hlast
      exact hlast
  · refine boundary_append h.boundary fun hreusable => ?_
    rw [hresult] at hreusable
    exact hposition hreusable
  · rw [List.pairwise_append]
    refine ⟨h.silent, List.pairwise_singleton _ _, ?_⟩
    intro earlier hmem later _ hbad
    simp [h.reusable_of_open hopen hmem] at hbad

/-- A frame that the server reads is the request in flight: a part of a request is not a frame. -/
theorem request_inFlight (h : s.Inv) {request : Frame} (hevents : available events <+: s.toServer)
    (hread : readFrame events = (some request, rest)) :
    ∃ sql part, request = requestFrame sql ∧ s.issued.drop s.services.length = [sql] ∧
      s.toServer = (requestFrame sql).bytes ++ part ∧ Cut part ∧
      (s.clientOpen = true → part = []) := by
  obtain ⟨hwf, havail⟩ := readFrameInternal_eq_ok (readFrame_eq_some.mp hread)
  obtain ⟨more, hmore⟩ := hevents
  rw [havail, List.append_assoc] at hmore
  obtain ⟨part, hpart, hcut, hempty⟩ := h.toServer
  have hmost : (s.issued.drop s.services.length).length ≤ 1 := by
    have hle := h.issued_le
    rw [List.length_drop]
    omega
  match hdrop : s.issued.drop s.services.length, hmost with
  | [sql], _ =>
    have hmem : sql ∈ s.issued := by
      apply List.mem_of_mem_drop
      rw [hdrop]
      exact List.mem_singleton_self sql
    rw [hdrop, List.flatMap_singleton] at hpart
    obtain ⟨rfl, -⟩ := frame_eq_of_append_eq hwf (h.wellFormed sql hmem) (hmore.trans hpart)
    exact ⟨sql, part, rfl, rfl, hpart, hcut, hempty⟩
  | [], _ =>
    rw [hdrop, List.flatMap_nil, List.nil_append, ← hmore] at hpart
    obtain ⟨sql, hwf', ⟨tail, htail⟩, hne⟩ := hcut
    rw [← hpart, List.append_assoc] at htail
    have htail' :
        request.bytes ++ (available rest ++ more ++ tail) = (requestFrame sql).bytes ++ [] := by
      rw [List.append_nil, ← htail, List.append_assoc]
    obtain ⟨rfl, hnil⟩ := frame_eq_of_append_eq hwf hwf' htail'
    obtain ⟨hleft, -⟩ := List.append_eq_nil_iff.mp hnil
    rw [hleft, List.append_nil] at hpart
    exact absurd hpart.symm hne

/-- The server reads the request that is in flight, and adds what it writes for it. -/
theorem served_step (h : s.Inv) {request : Frame} {outcome : Outcome} {faults : Faults}
    {ok : Bool} (hserving : s.serverOpen = true) (hevents : available events <+: s.toServer)
    (hread : readFrame events = (some request, rest))
    (hserve : handleRequest faults outcome request ⟨schedule, [], errno⟩ = (ok, sink)) :
    Session.Inv { s with
      serverOpen := ok
      toServer := s.toServer.drop request.bytes.length
      toClient := s.toClient ++ sink.written
      services := s.services ++ [⟨request, outcome, sink.written, ok⟩] } := by
  obtain ⟨sql, part, rfl, hdrop, hpart, hcut, hempty⟩ := h.request_inFlight hevents hread
  have hlen : s.issued.length = s.services.length + 1 := by
    have hlen := congrArg List.length hdrop
    rw [List.length_drop, List.length_singleton] at hlen
    omega
  have hspec := Service.spec_of_handleRequest hserve
  generalize hservice : Service.mk (requestFrame sql) outcome sink.written ok = service at hspec ⊢
  have hrequest : service.request = requestFrame sql := by rw [← hservice]
  have hwritten : service.written = sink.written := by rw [← hservice]
  have hgoesOn : service.goesOn = ok := by rw [← hservice]
  refine { h with
      requests := ?_
      issued_le := ?_
      toServer := ⟨part, ?_, hcut, hempty⟩
      idle := ?_
      toClient := ?_
      position := fun hopen => (h.position hopen).append _
      served := List.forall_mem_append.mpr ⟨h.served, by simpa using hspec⟩
      ended := ?_
      ended_last := by simpa using h.ended hserving
      paired := ?_
      boundary := fun k report hk hreusable => (h.boundary k report hk hreusable).append _ }
  · obtain ⟨tail, htail⟩ := h.requests
    show (s.services ++ [service]).map Service.request <+: s.issued.map requestFrame
    have hsplit : s.issued = s.issued.take s.services.length ++ [sql] := by
      rw [← hdrop, List.take_append_drop]
    have hmin : s.services.length ≤ s.issued.length := by omega
    have htake : s.services.map Service.request =
        (s.issued.take s.services.length).map requestFrame := by
      rw [hsplit, List.map_append] at htail
      exact List.append_inj_left htail (by simp [hmin])
    rw [hsplit, List.map_append, List.map_append, htake]
    simp [hrequest]
  · show s.issued.length ≤ (s.services ++ [service]).length + 1
    rw [List.length_append, List.length_singleton]
    omega
  · show s.toServer.drop (requestFrame sql).bytes.length =
      (s.issued.drop (s.services ++ [service]).length).flatMap _ ++ part
    rw [List.length_append, List.length_singleton, ← hlen, List.drop_length, hpart, List.drop_left]
    rfl
  · intro (hopen : s.clientOpen = true) (hidle : s.pending = none)
    have hsame := h.length_services hopen hidle
    rw [issued_idle hidle, List.length_map] at hlen
    omega
  · intro hopen
    show s.toClient ++ sink.written =
      written ((s.services ++ [service]).drop (senders s.reports).length)
    rw [List.drop_append_of_le_length (h.position hopen).1, written_append, h.toClient hopen,
      ← hwritten]
    simp [written]
  · intro hok
    refine List.forall_mem_append.mpr ⟨h.ended hserving, ?_⟩
    simpa [hgoesOn] using hok
  · intro k report hk
    rcases h.paired k report hk with hstatus | ⟨served, hserved, hreports⟩
    · exact .inl hstatus
    · refine .inr ⟨served, ?_, hreports⟩
      obtain ⟨hlt, -⟩ := List.getElem?_eq_some_iff.mp hserved
      show (s.services ++ [service])[k]? = some served
      rw [List.getElem?_append_left hlt, hserved]

theorem hungUp (h : s.Inv) : Session.Inv { s with serverOpen := false } :=
  { h with ended := by simp }

theorem step {s' : Session} (h : s.Inv) (hstep : Session.Step s s') : s'.Inv := by
  cases hstep with
  | refused sql options schedule errno hidle hsend => exact h.refused hidle hsend
  | requested sql options schedule errno hidle hsend => exact h.requested hidle hsend
  | responded hcall hevents hread => exact h.responded hcall hevents hread
  | served outcome faults schedule errno hopen hevents hread hserve =>
    exact h.served_step hopen hevents hread hserve
  | hungUp => exact h.hungUp

end Session.Inv

theorem Session.Reachable.inv {s : Session} (h : s.Reachable) : s.Inv := by
  induction h with
  | refl => exact Session.inv_initial
  | tail _ hstep ih => exact ih.step hstep

/-- Up to a call whose connection can be used again, every sent request got its response. -/
theorem Session.Inv.answered {s : Session} (h : s.Inv) {k : ℕ} {report : Report}
    (hk : s.reports[k]? = some report) (hreusable : report.result.connectionReusable = true) :
    ∀ service ∈ s.services.take (senders (s.reports.take (k + 1))).length, service.Answered := by
  obtain ⟨hlt, rfl⟩ := List.getElem?_eq_some_iff.mp hk
  -- Had an earlier call failed, this one would have failed too.
  have hearlier : ∀ earlier ∈ s.reports.take (k + 1),
      earlier.result.connectionReusable = true := by
    intro earlier hmem
    rw [List.take_succ_eq_append_getElem hlt, List.mem_append, List.mem_singleton] at hmem
    rcases hmem with hbefore | rfl
    · by_contra hbad
      have hpairs := h.silent
      rw [← List.take_append_drop k s.reports, List.pairwise_append] at hpairs
      have hlater : s.reports[k] ∈ s.reports.drop k := by
        rw [List.drop_eq_getElem_cons hlt]
        exact List.mem_cons_self
      obtain ⟨hstatus, -⟩ := hpairs.2.2 earlier hbefore _ hlater (by simpa using hbad)
      simp [ExecuteResult.connectionReusable, hstatus] at hreusable
    · exact hreusable
  intro service hmem
  obtain ⟨i, hi⟩ := List.mem_iff_getElem?.mp hmem
  rw [List.getElem?_take] at hi
  split_ifs at hi with hi'
  have hmem' := List.getElem_mem hi'
  -- The senders up to this call come first among all senders.
  have hfront : senders (s.reports.take (k + 1)) <+: senders s.reports :=
    (List.take_prefix _ _).filter _
  have hsender : (senders s.reports)[i]? = some (senders (s.reports.take (k + 1)))[i] := by
    obtain ⟨more, hmore⟩ := hfront
    rw [← hmore, List.getElem?_append_left hi', List.getElem?_eq_getElem hi']
  rcases h.paired i _ hsender with
    hstatus | ⟨service', hservice', -, response, hserves, hwritten, -⟩
  · have hgood := hearlier _ (List.mem_of_mem_filter hmem')
    simp [ExecuteResult.connectionReusable, hstatus] at hgood
  · obtain rfl : service' = service := Option.some.inj (hservice'.symm.trans hi)
    exact ⟨response, hserves, hwritten⟩

/-- On every connection: the server writes one response for each request that it reads, or ends the
connection; the call that sent the `k`th request frame reports the outcome of the `k`th request that
the server read, or a transport error; a call that leaves the connection reusable has read up to the
end of the response to the last request that was sent; and after a call that does not, every call
fails without sending or reading anything. -/
theorem session_paired {s : Session} (h : s.Reachable) :
    (∀ service ∈ s.services, service.Spec) ∧
    (∀ service ∈ s.services, service.goesOn = false →
      s.serverOpen = false ∧ service ∉ s.services.dropLast) ∧
    s.services.map Service.request <+: s.issued.map requestFrame ∧
    (∀ (k : ℕ) (report : Report), (senders s.reports)[k]? = some report →
      report.result.status = .transportError ∨
        ∃ service, s.services[k]? = some service ∧ Reports report service) ∧
    (∀ (k : ℕ) (report : Report), s.reports[k]? = some report →
      report.result.connectionReusable = true →
      let calls := s.reports.take (k + 1)
      (senders calls).length ≤ s.services.length ∧
      (∀ service ∈ s.services.take (senders calls).length, service.Answered) ∧
      received calls = written (s.services.take (senders calls).length)) ∧
    s.reports.Pairwise fun earlier later =>
      earlier.result.connectionReusable = false →
        later.result.status = .transportError ∧ later.sent = [] ∧ later.received = [] := by
  have hinv := h.inv
  refine ⟨hinv.served, ?_, hinv.requests, hinv.paired, ?_, hinv.silent⟩
  · intro service hmem hgoes
    constructor
    · by_contra hserving
      have hon := hinv.ended (by simpa using hserving) service hmem
      simp [hgoes] at hon
    · intro hbefore
      have hon := hinv.ended_last service hbefore
      simp [hgoes] at hon
  · intro k report hk hreusable
    obtain ⟨hle, hposition⟩ := hinv.boundary k report hk hreusable
    exact ⟨hle, hinv.answered hk hreusable, hposition⟩

/-- A connection with one query, which fails. -/
theorem session_paired_failure :
    ∃ s : Session, s.Reachable ∧ ∃ report, (senders s.reports)[0]? = some report ∧
      report.result.status = .sqlError ∧
      ∃ service, s.services[0]? = some service ∧ Reports report service := by
  let response := Response.failure none (errorFailure (text "no"))
  have hsend : sendRequest true (text "X") ⟨[], [], []⟩ =
      (.ok (), ⟨[], (requestFrame (text "X")).bytes, []⟩) := rfl
  have hrequest : available [.chunk 0 ((requestFrame (text "X")).bytes.drop 1)] =
      (requestFrame (text "X")).bytes ++ [] := by decide
  have htaken : available [.chunk 0 ((requestFrame (text "X")).bytes.drop 1)] <+:
      (requestFrame (text "X")).bytes := by decide
  obtain ⟨rest', hread', -⟩ := readFrameInternal_of_bytes (by decide) hrequest
  have hserve : handleRequest (fun _ => none) (.threw (.rmdbError (text "no")))
      (requestFrame (text "X")) ⟨[], [], []⟩ = (true, ⟨[], response.bytes, []⟩) := rfl
  have hanswer : available [.chunk 0 (response.bytes.drop 1)] = response.bytes ++ [] := rfl
  obtain ⟨rest, hread, -⟩ := receive_of_response {} response hanswer
  have hreachable := ((Relation.ReflTransGen.single
    (Session.Step.requested (s := {}) (text "X") {} [] [] rfl hsend)).tail
    (Session.Step.served _ _ _ _ rfl htaken (readFrame_eq_some.mpr hread') hserve)).tail
    (Session.Step.responded rfl (List.prefix_refl _) hread)
  have hsender : ∀ received, (senders ([] ++ [⟨text "X", {}, (response.ended {}).result,
      (requestFrame (text "X")).bytes, received⟩]))[0]? =
      some ⟨text "X", {}, (response.ended {}).result, (requestFrame (text "X")).bytes,
        received⟩ := by
    intro received
    rw [senders_append_of_sent (by rw [Report.SentFrame])]
    rfl
  refine ⟨_, hreachable, _, hsender _, rfl, ?_⟩
  rcases (session_paired hreachable).2.2.2.1 0 _ (hsender _) with hstatus | hreports
  · cases hstatus
  · exact hreports

end Rucbase.Server
