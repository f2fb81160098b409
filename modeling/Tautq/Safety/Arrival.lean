import Tautq.Core.Http

/-!
# Requests Whatever Way Their Bytes Arrive

A connection brings a stream of bytes, cut into reads at any places. The server parses
whenever a read is over and no handler is at work, and again after every response. Which
requests it hands to its handlers depends on the stream alone.

`requests` says which ones those are: parse the whole stream from its start, request after
request, up to one that asks for the connection to be closed, or one that is malformed, or
one that is not whole. A server that has read some of the stream cannot know the end of
it. So the invariant, `Accounts`, is about every way the stream may go on: the requests of
what was read and any further bytes are those already dispatched, and then those of the
buffer and the further bytes.

Parsing keeps it because what is parsed stays parsed when bytes are added behind
(`parse_append_of_request`, `parse_append_of_malformed`). Only a buffer without a whole
request is parsed again.

## Main definitions

* `requests`: The requests of a stream.
* `Conn.ahead`: What a connection is still to dispatch, if further bytes come.
* `Accounts`: The requests of a stream are the dispatched ones and those ahead.
* `Event.plain`, `stream`: Events of a connection that stays open, and the bytes they
  bring.

## Theorems

* `parse_append_of_request`, `parse_append_of_malformed`: Parsing is stable.
* `tryParse_accounts`, `sendResponse_accounts`: Parsing and responding keep the account.
* `Accounts.step`: So does every event.
* `dispatched_of_stream`: The requests dispatched are those of the stream.
-/

namespace Tautq.Http

/-! ### Parsing is stable -/

theorem parseBody_append_of_request {method target rest rest' : Bytes} {headers : Fields}
    {req : Request} (h : parseBody method target headers rest = .request req rest') (x : Bytes) :
    parseBody method target headers (rest ++ x) = .request req (rest' ++ x) := by
  unfold parseBody at h ⊢
  by_cases hbig : kMaxRequestBytes < contentLength headers
  · rw [if_pos hbig] at h
    cases h
  · rw [if_neg hbig] at h ⊢
    by_cases hshort : rest.length < contentLength headers
    · rw [if_pos hshort] at h
      cases h
    · have hwhole : ¬ (rest ++ x).length < contentLength headers := by
        rw [List.length_append]
        omega
      rw [if_neg hshort] at h
      rcases Parsed.request.inj h with ⟨hreq, hrest⟩
      rw [if_neg hwhole, List.take_append_of_le_length (by omega),
        List.drop_append_of_le_length (by omega), hreq, hrest]

theorem parseBody_append_of_malformed {method target rest : Bytes} {headers : Fields}
    (h : parseBody method target headers rest = .malformed) (x : Bytes) :
    parseBody method target headers (rest ++ x) = .malformed := by
  unfold parseBody at h ⊢
  by_cases hbig : kMaxRequestBytes < contentLength headers
  · rw [if_pos hbig]
  · rw [if_neg hbig] at h
    split at h <;> cases h

theorem parseHead_append_of_request {head line rest rest' : Bytes} {req : Request}
    (h : parseHead head line rest = .request req rest') (x : Bytes) :
    parseHead head line (rest ++ x) = .request req (rest' ++ x) := by
  unfold parseHead at h ⊢
  generalize splitRequestLine line = parts at h ⊢
  rcases parts with _ | ⟨method, target⟩
  · cases h
  · exact parseBody_append_of_request h x

theorem parseHead_append_of_malformed {head line rest : Bytes}
    (h : parseHead head line rest = .malformed) (x : Bytes) :
    parseHead head line (rest ++ x) = .malformed := by
  unfold parseHead at h ⊢
  generalize splitRequestLine line = parts at h ⊢
  rcases parts with _ | ⟨method, target⟩
  · rfl
  · exact parseBody_append_of_malformed h x

/-- A buffer that is parsed to something has a head, and keeps it when it grows. -/
theorem parse_append {buf : Bytes} (h : parse buf ≠ .incomplete) :
    ∃ head line rest, parse buf = parseHead head line rest ∧
      ∀ x, parse (buf ++ x) = parseHead head line (rest ++ x) := by
  rcases hhead : cut (crlf ++ crlf) buf with _ | ⟨head, rest⟩
  · rw [parse, hhead] at h
    exact absurd rfl h
  rcases hline : cut crlf buf with _ | ⟨line, after⟩
  · rw [parse, hhead, hline] at h
    exact absurd rfl h
  refine ⟨head, line, rest, ?_, fun x => ?_⟩
  · rw [parse, hhead, hline]
  · rw [parse, cut_append hhead x, cut_append hline x]

/-- A request that was parsed is parsed again when bytes are added behind it. -/
theorem parse_append_of_request {buf rest : Bytes} {req : Request}
    (h : parse buf = .request req rest) (x : Bytes) :
    parse (buf ++ x) = .request req (rest ++ x) := by
  rcases parse_append (h ▸ by simp : parse buf ≠ .incomplete) with ⟨head, line, tail, hbuf, hmore⟩
  rw [hmore]
  exact parseHead_append_of_request (hbuf.symm.trans h) x

/-- What was malformed stays so. -/
theorem parse_append_of_malformed {buf : Bytes} (h : parse buf = .malformed) (x : Bytes) :
    parse (buf ++ x) = .malformed := by
  rcases parse_append (h ▸ by simp : parse buf ≠ .incomplete) with ⟨head, line, tail, hbuf, hmore⟩
  rw [hmore]
  exact parseHead_append_of_malformed (hbuf.symm.trans h) x

/-! ### The requests of a stream -/

/-- The requests of a stream, up to and with the first that asks for the connection to be
    closed, and up to the first that is malformed or not whole. -/
def requests (stream : Bytes) : List Request :=
  match h : parse stream with
  | .request req rest =>
    have := parse_shorter h
    if keepAlive req then req :: requests rest else [req]
  | .incomplete => []
  | .malformed => []
termination_by stream.length

theorem requests_of_incomplete {s : Bytes} (h : parse s = .incomplete) : requests s = [] := by
  rw [requests]
  split
  · rename_i heq
    rw [h] at heq
    cases heq
  · rfl
  · rfl

theorem requests_of_malformed {s : Bytes} (h : parse s = .malformed) : requests s = [] := by
  rw [requests]
  split
  · rename_i heq
    rw [h] at heq
    cases heq
  · rfl
  · rfl

theorem requests_of_request {s rest : Bytes} {req : Request} (h : parse s = .request req rest) :
    requests s = req :: if keepAlive req then requests rest else [] := by
  rw [requests]
  split
  · rename_i heq
    rw [h] at heq
    rcases Parsed.request.inj heq with ⟨rfl, rfl⟩
    split <;> rfl
  · rename_i heq
    rw [h] at heq
    cases heq
  · rename_i heq
    rw [h] at heq
    cases heq

/-! ### The account of a connection -/

/-- What a connection is still to dispatch, if its stream goes on with further bytes. A handler
    that will close the connection is the last one. -/
def Conn.ahead (c : Conn) (x : Bytes) : List Request :=
  if c.isOpen = true ∧ c.awaitingHandler ≠ some false then requests (c.inp ++ x) else []

/-- The requests of what has arrived and any further bytes are those dispatched and those
    ahead. -/
structure Accounts (arrived : Bytes) (c : Conn) : Prop where
  account : ∀ x, requests (arrived ++ x) = c.dispatched ++ c.ahead x
  kept : c.isOpen = true → c.closeAfterWrite = false
  bounded : c.inp.length ≤ arrived.length

/-- No handler is at work, and no whole request waits. -/
def Conn.Idle (c : Conn) : Prop :=
  c.isOpen = true → c.awaitingHandler = none → parse c.inp = .incomplete

section Parsing

variable {srv : Server} {arrived : Bytes} {c : Conn}

theorem parse_nil : parse [] = .incomplete := rfl

/-- The next request is dispatched: it was the first of those ahead. -/
theorem Accounts.dispatch (h : Accounts arrived c) (hopen : c.isOpen = true)
    (hwait : c.awaitingHandler = none) {req : Request} {rest : Bytes}
    (hparse : parse c.inp = .request req rest) :
    Accounts arrived { c with
      inp := rest
      awaitingHandler := some (keepAlive req)
      dispatched := c.dispatched ++ [req] } := by
  refine ⟨fun x => ?_, h.kept, ?_⟩
  · rw [h.account x, Conn.ahead, if_pos ⟨hopen, by rw [hwait]; simp⟩,
      requests_of_request (parse_append_of_request hparse x), Conn.ahead, List.append_assoc]
    cases hkeep : keepAlive req with
    | false => simp
    | true => simp [hopen]
  · have hshort := parse_shorter hparse
    have hbound := h.bounded
    change rest.length ≤ arrived.length
    omega

/-- A malformed request ends the connection, and the requests. -/
theorem Accounts.malformed (h : Accounts arrived c) (hopen : c.isOpen = true)
    (hwait : c.awaitingHandler = none) (hparse : parse c.inp = .malformed) :
    Accounts arrived c.closeConn := by
  refine ⟨fun x => ?_, fun hc => ?_, h.bounded⟩
  · rw [h.account x, Conn.ahead, if_pos ⟨hopen, by rw [hwait]; simp⟩,
      requests_of_malformed (parse_append_of_malformed hparse x), Conn.ahead, if_neg]
    · rfl
    · exact fun hc => Bool.noConfusion hc.1
  · cases hc

/-- A response that is written at once keeps the account: the connection waits again, or it is
    closed and nothing was ahead. -/
theorem Accounts.written (h : Accounts arrived c) {keep : Bool}
    (hwait : c.awaitingHandler = some keep) (r : Response) :
    Accounts arrived ((c.queue keep r).flush .full) := by
  refine ⟨fun x => ?_, ?_, h.bounded⟩
  · rw [h.account x, Conn.ahead, Conn.ahead, hwait]
    cases keep with
    | false => simp [Conn.flush, Conn.drained, Conn.queue]
    | true => simp [Conn.flush, Conn.drained, Conn.queue]
  · cases keep with
    | false => simp [Conn.flush, Conn.drained, Conn.queue]
    | true => simp [Conn.flush, Conn.drained, Conn.queue]

/-- Responding keeps the account, if parsing the same buffer does. -/
theorem sendResponse_of_tryParse (hwrite : ∀ reqs, srv.write reqs = .full)
    (hparse : ∀ c', c'.inp = c.inp → Accounts arrived c' → c'.isOpen = true →
      c'.awaitingHandler = none → Accounts arrived (tryParse srv c') ∧ (tryParse srv c').Idle)
    (h : Accounts arrived c) {keep : Bool} (hwait : c.awaitingHandler = some keep) (r : Response) :
    Accounts arrived (sendResponse srv c keep r) ∧ (sendResponse srv c keep r).Idle := by
  rw [sendResponse, hwrite]
  have hwritten := h.written hwait r
  have hinp : ((c.queue keep r).flush .full).inp = c.inp := by simp
  generalize (c.queue keep r).flush .full = c' at hwritten hinp ⊢
  by_cases hmore : c'.isOpen ∧ c'.awaitingHandler = none ∧ c'.inp ≠ []
  · rw [if_pos hmore]
    exact hparse c' hinp hwritten hmore.1 hmore.2.1
  · rw [if_neg hmore]
    refine ⟨hwritten, fun hopen hnone => ?_⟩
    -- Nothing is buffered, so nothing is to be parsed.
    have hnil : c'.inp = [] := by
      by_contra hne
      exact hmore ⟨hopen, hnone, hne⟩
    rw [hnil]
    exact parse_nil

/-- Parsing keeps the account and leaves no whole request behind. -/
theorem tryParse_accounts (hwrite : ∀ reqs, srv.write reqs = .full) (h : Accounts arrived c)
    (hopen : c.isOpen = true) (hwait : c.awaitingHandler = none) :
    Accounts arrived (tryParse srv c) ∧ (tryParse srv c).Idle := by
  -- By induction on the buffer: every request that is answered at once makes it shorter.
  induction hn : c.inp.length using Nat.strong_induction_on generalizing c with
  | _ n ih =>
  rw [tryParse]
  split
  · rename_i hparse
    exact ⟨h, fun _ _ => hparse⟩
  · rename_i hparse
    refine ⟨h.malformed hopen hwait hparse, fun hc => ?_⟩
    cases hc
  · rename_i req rest hparse
    have hshort := parse_shorter hparse
    have hnext := h.dispatch hopen hwait hparse
    have hsent := fun r => sendResponse_of_tryParse hwrite
      (fun c' hinp hacc hstill hnone =>
        ih c'.inp.length (by rw [hinp, ← hn]; exact hshort) hacc hstill hnone rfl) hnext rfl r
    simp only
    split
    · exact hsent _
    · split
      · exact ⟨hnext, fun _ hnone => by cases hnone⟩
      · exact hsent _

/-- Responding keeps the account. -/
theorem sendResponse_accounts (hwrite : ∀ reqs, srv.write reqs = .full) (h : Accounts arrived c)
    {keep : Bool} (hwait : c.awaitingHandler = some keep) (r : Response) :
    Accounts arrived (sendResponse srv c keep r) ∧ (sendResponse srv c keep r).Idle :=
  sendResponse_of_tryParse hwrite (fun _ _ hacc hopen hnone => tryParse_accounts hwrite
    hacc hopen hnone) h hwait r

end Parsing

/-! ### Runs of a connection -/

/-- The event leaves the connection open and does not block its writes. -/
def Event.plain : Event → Prop
  | .ready ev => ev.hangup = false ∧ (∀ bufs eof, ev.input = some (bufs, eof) → eof = false) ∧
      ∀ w, ev.output = some w → w = .full
  | .respond _ => True

/-- The bytes an event brings. -/
def Event.bytes : Event → Bytes
  | .ready ev => ((ev.input.map (·.1)).getD []).flatten
  | .respond _ => []

/-- The bytes a run has brought. -/
def stream (events : List Event) : Bytes :=
  events.flatMap Event.bytes

section Runs

variable {srv : Server} {arrived : Bytes} {c : Conn}

/-- Reading moves bytes from the stream to the buffer, unless they are too many. -/
theorem read_eq (c : Conn) (bufs : List Bytes)
    (h : c.inp.length + bufs.flatten.length ≤ kMaxRequestBytes) :
    c.read bufs = { c with inp := c.inp ++ bufs.flatten } := by
  induction bufs generalizing c with
  | nil => simp [Conn.read]
  | cons buf bufs ih =>
    rw [List.flatten_cons, List.length_append] at h
    have hfits : ¬ kMaxRequestBytes < (c.inp ++ buf).length := by
      rw [List.length_append]
      omega
    rw [Conn.read]
    simp only [if_neg hfits]
    rw [ih _ (by rw [List.length_append]; omega), List.flatten_cons, List.append_assoc]

/-- Bytes arrive in the buffer. -/
theorem Accounts.read (h : Accounts arrived c) (hopen : c.isOpen = true) (buf : Bytes) :
    Accounts (arrived ++ buf) { c with inp := c.inp ++ buf } := by
  refine ⟨fun x => ?_, h.kept, ?_⟩
  · rw [List.append_assoc, h.account (buf ++ x), Conn.ahead, Conn.ahead]
    simp only [hopen, List.append_assoc]
  · have hbound := h.bounded
    simp only [List.length_append]
    omega

/-- Bytes arrive at a connection that is gone. -/
theorem Accounts.gone (h : Accounts arrived c) (hclosed : c.isOpen = false) (buf : Bytes) :
    Accounts (arrived ++ buf) c := by
  refine ⟨fun x => ?_, h.kept, ?_⟩
  · rw [List.append_assoc, h.account (buf ++ x), Conn.ahead, Conn.ahead, hclosed]
    simp
  · have hbound := h.bounded
    rw [List.length_append]
    omega

/-- Writing on closes nothing, as no response that closes the connection is left to write. -/
theorem writeOn_accounts {output : Option Write} (hfull : ∀ w, output = some w → w = .full)
    (h : Accounts arrived c ∧ c.Idle) :
    Accounts arrived (c.writeOn output) ∧ (c.writeOn output).Idle := by
  cases output with
  | none => exact h
  | some w =>
    rw [hfull w rfl, Conn.writeOn]
    by_cases hopen : c.isOpen = true
    · have hkeep := h.1.kept hopen
      have hstill : (c.flush .full).isOpen = c.isOpen := by
        simp [Conn.flush, Conn.drained, hkeep]
      rw [if_pos hopen]
      refine ⟨⟨fun x => ?_, fun _ => hkeep, h.1.bounded⟩, fun _ hnone => h.2 hopen hnone⟩
      rw [h.1.account x, Conn.ahead, Conn.ahead, hstill]
      rfl
    · rw [if_neg hopen]
      exact h

/-- Every event of a connection that stays open keeps the account. -/
theorem Accounts.step (hwrite : ∀ reqs, srv.write reqs = .full) (h : Accounts arrived c ∧ c.Idle)
    {e : Event} (hplain : e.plain) (hlen : (arrived ++ e.bytes).length ≤ kMaxRequestBytes) :
    Accounts (arrived ++ e.bytes) (c.step srv e) ∧ (c.step srv e).Idle := by
  by_cases hopen : c.isOpen = true
  · cases e with
    | respond r =>
      rw [Event.bytes, List.append_nil]
      rcases hwait : c.awaitingHandler with _ | keep
      · rw [Conn.step, hopen, hwait]
        exact h
      · rw [Conn.step, hopen, hwait]
        exact sendResponse_accounts hwrite h.1 hwait r
    | ready ev =>
      rcases hplain with ⟨hhangup, heof, hfull⟩
      rw [Conn.step, connReady, if_neg (by rw [hopen]; simp), if_neg (by rw [hhangup]; simp)]
      rcases hinput : ev.input with _ | ⟨bufs, eof⟩
      · rw [Event.bytes, hinput]
        simp only [Option.map_none, Option.getD_none, List.flatten_nil, List.append_nil]
        exact writeOn_accounts hfull h
      · have hbytes : (Event.ready ev).bytes = bufs.flatten := by rw [Event.bytes, hinput]; rfl
        have hbound := h.1.bounded
        rw [hbytes, List.length_append] at hlen
        have hread := h.1.read hopen bufs.flatten
        rw [← read_eq c bufs (by omega)] at hread
        have hstill : (c.read bufs).isOpen = true := by rw [read_eq c bufs (by omega)]; exact hopen
        rw [hbytes]
        simp only [heof bufs eof hinput, Bool.false_eq_true, if_false]
        generalize c.read bufs = c' at hread hstill ⊢
        rw [if_neg (by rw [hstill]; simp)]
        rcases hwait : c'.awaitingHandler with _ | keep
        · exact writeOn_accounts hfull (tryParse_accounts hwrite hread hstill hwait)
        · refine writeOn_accounts hfull ⟨hread, fun _ hnone => ?_⟩
          rw [hwait] at hnone
          cases hnone
  · -- The connection is gone: nothing happens to it any more.
    have hclosed : c.isOpen = false := by simpa using hopen
    have hsame : c.step srv e = c := by
      cases e with
      | ready ev => rw [Conn.step, connReady, if_pos hclosed]
      | respond r => rw [Conn.step, hclosed]
    rw [hsame]
    exact ⟨h.1.gone hclosed e.bytes, h.2⟩

theorem after_accounts (hwrite : ∀ reqs, srv.write reqs = .full) (events : List Event)
    (hplain : ∀ e ∈ events, e.plain) (hlen : (stream events).length ≤ kMaxRequestBytes) :
    Accounts (stream events) (Conn.after srv events) ∧ (Conn.after srv events).Idle := by
  induction events using List.reverseRecOn with
  | nil =>
    refine ⟨⟨fun x => ?_, fun _ => rfl, Nat.le_refl _⟩, fun _ _ => parse_nil⟩
    simp [stream, Conn.after, Conn.ahead]
  | append_singleton events e ih =>
    have hstream : stream (events ++ [e]) = stream events ++ e.bytes := by
      simp [stream]
    rw [hstream] at hlen ⊢
    rw [Conn.after, List.foldl_append, List.foldl_cons, List.foldl_nil]
    refine Accounts.step hwrite (ih (fun e he => hplain e (List.mem_append_left _ he)) ?_)
      (hplain e (by simp)) hlen
    rw [List.length_append] at hlen
    omega

end Runs

/-- No handler of an open connection is still to respond. -/
def Conn.Settled (c : Conn) : Prop :=
  c.isOpen = true → c.awaitingHandler = none

/-- Whatever way a stream is cut into reads, and whether handlers respond at once or later: the
    server dispatches the requests of the stream, in their order, and all of them once its
    handlers have responded. -/
theorem dispatched_of_stream (srv : Server) (hwrite : ∀ reqs, srv.write reqs = .full)
    (events : List Event) (hplain : ∀ e ∈ events, e.plain)
    (hlen : (stream events).length ≤ kMaxRequestBytes) :
    (Conn.after srv events).dispatched <+: requests (stream events) ∧
      ((Conn.after srv events).Settled →
        (Conn.after srv events).dispatched = requests (stream events)) := by
  rcases after_accounts hwrite events hplain hlen with ⟨hacc, hidle⟩
  have hall := hacc.account []
  rw [List.append_nil] at hall
  refine ⟨⟨_, hall.symm⟩, fun hsettled => ?_⟩
  rw [hall, Conn.ahead]
  by_cases hopen : (Conn.after srv events).isOpen = true
  · have hnone := hsettled hopen
    rw [if_pos ⟨hopen, by rw [hnone]; simp⟩, List.append_nil,
      requests_of_incomplete (hidle hopen hnone), List.append_nil]
  · rw [if_neg fun hc => hopen hc.1, List.append_nil]

/-- A server whose handler keeps the first request waiting. -/
def patient : Server where
  routes := route (ascii "POST") (ascii "/v1/lease")
    (fun reqs => if reqs.length = 1 then none
      else some { code := 204, contentType := ascii "text/plain", body := [] }) []

/-- Two requests, cut in a header name and in a body; the first is answered when both have
    arrived. -/
def halves : List Event :=
  [.ready { input := some ([ascii "POST /v1/lease?worker=7 HTTP/1.1\r\nContent-Le"], false) },
    .ready { input := some ([ascii "ngth: 2\r\n\r\no",
      ascii "kGET /healthz HTTP/1.1\r\nConnection: close\r\n\r\n"], false) },
    .respond { code := 204, contentType := ascii "text/plain", body := [] }]

theorem halves_plain : ∀ e ∈ halves, e.plain := by
  intro e he
  simp only [halves, List.mem_cons, List.not_mem_nil, or_false] at he
  rcases he with rfl | rfl | rfl
  · simp [Event.plain]
  · simp [Event.plain]
  · trivial

theorem dispatched_of_stream_halves :
    (Conn.after patient halves).dispatched = requests (stream halves) ∧
      (requests (stream halves)).map (·.path) = [ascii "/v1/lease", ascii "/healthz"] :=
  ⟨(dispatched_of_stream patient (fun _ => rfl) halves halves_plain (by decide +kernel)).2
      fun _ => by decide +kernel,
    by decide +kernel⟩

end Tautq.Http
