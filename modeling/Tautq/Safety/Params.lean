import Tautq.Core.Routes

/-!
# What a Request Can Do to the Node

The handlers of the node's routes read their parameters by steps that can throw, and
nothing catches what they throw. Whether a request can end the node is thus a question of
what holds before each of these steps.

A map is read only for a key it was asked about before, and the one substring is taken
behind a prefix that routing has found: the method of a request has no space in it, so a key
`GET /v1/jobs/...` has its path where the handler looks for it. The numbers are the
exception. `qnum` hands whatever a client sends to `stoul`, which throws if there is no number
or one too great; and what it does read may be a sign and digits, digits and anything else,
or more than 32 bits (`number_aborts`). A request is served, and no such number used, exactly
if its numeric parameters are numerals below `2 ^ 32`; an ack that names no job is answered
before a number of it is read (`request_served`).

## Main definitions

* `IsNumeral`: A decimal number below `2 ^ 32`.
* `NumbersFit`: The parameters that the route of a request reads as numbers are such.
* `ackId`: The job that an ack names.
* `received`: What comes of a buffer that holds a request.

## Theorems

* `qnum_of_numeral`: A numeral is used as its number.
* `path_of_status`: The path that the status route cuts is long enough.
* `number_aborts`: Numbers that end the node, and others that are used.
* `request_served`: The requests that are served, and what they come to.
-/

namespace Tautq.Http

/-! ### Steps that do not throw -/

/-- A decimal number below `2 ^ 32`. -/
def IsNumeral (v : Bytes) : Prop :=
  v ≠ [] ∧ (∀ d ∈ v, isDigit d = true) ∧ digitsFrom 0 v < 2 ^ 32

instance (v : Bytes) : Decidable (IsNumeral v) :=
  inferInstanceAs (Decidable (_ ∧ _ ∧ _))

section Steps

variable {r : Request} {k v : Bytes}

/-- A numeral is used as its number. -/
theorem qnum_of_numeral (hlookup : r.query.lookup k = some v) (h : IsNumeral v) (dflt : Nat) :
    qnum r k dflt = .ok (digitsFrom 0 v) := by
  have hscan := scanNumber_append (t := []) h.1 h.2.1 rfl
  rw [List.append_nil] at hscan
  have hsmall : ¬ 2 ^ 64 ≤ digitsFrom 0 v := by
    have := h.2.2
    omega
  rw [qnum, hlookup]
  simp only [stoul, hscan, if_neg hsmall, signed, Bool.false_eq_true, if_false]
  rw [Except.map, Nat.mod_eq_of_lt h.2.2]

theorem qnum_ok (h : ∀ v, r.query.lookup k = some v → IsNumeral v) (dflt : Nat) :
    ∃ n, qnum r k dflt = .ok n := by
  rcases hlookup : r.query.lookup k with _ | v
  · exact ⟨dflt, by rw [qnum, hlookup]⟩
  · exact ⟨_, qnum_of_numeral hlookup (h v hlookup) dflt⟩

theorem valueAt_of_isSome {m : Fields} (h : (m.lookup k).isSome) : ∃ v, valueAt m k = .ok v := by
  rcases hlookup : m.lookup k with _ | v
  · rw [hlookup] at h
    cases h
  · exact ⟨v, by rw [valueAt, hlookup]⟩

theorem textParam_ok (r : Request) (k : Bytes) : ∃ v, textParam r k = .ok v := by
  unfold textParam
  by_cases hsome : (r.query.lookup k).isSome
  · rw [if_pos hsome]
    exact valueAt_of_isSome hsome
  · rw [if_neg hsome]
    exact ⟨[], rfl⟩

theorem substr_ok {s : Bytes} {pos : Nat} (h : pos ≤ s.length) :
    substr s pos = .ok (s.drop pos) := by
  rw [substr, if_neg (Nat.not_lt.mpr h)]

end Steps

/-! ### Handlers that do not throw -/

/-- The handler came to its end: it has responded, or the queue node has the operation and the
    callback. -/
def Ends (e : Except Abort Served) : Prop :=
  ∃ s, e = .ok s ∧ (s.response.isSome ∨ s.input.isSome)

theorem respond_ends (code : Nat) (contentType body : Bytes) :
    Ends (.ok (respond code contentType body)) :=
  ⟨_, rfl, Or.inl rfl⟩

/-- The queue node is handed an operation. -/
theorem handed_ends (i : Input) : Ends (.ok { input := some i }) :=
  ⟨_, rfl, Or.inr rfl⟩

/-- The numbers a handler reads are numerals. -/
def NumeralsAt (r : Request) (ks : List Bytes) : Prop :=
  ∀ k ∈ ks, ∀ v, r.query.lookup k = some v → IsNumeral v

section Handlers

variable {r : Request}

theorem submitRoute_ends (h : NumeralsAt r [ascii "visibility_ms", ascii "max_attempts"]) :
    Ends (submitRoute r) := by
  rcases textParam_ok r (ascii "key") with ⟨key, hkey⟩
  rcases textParam_ok r (ascii "url") with ⟨url, hurl⟩
  rcases qnum_ok (h (ascii "visibility_ms") (by simp)) 0 with ⟨visibility, hvisibility⟩
  rcases qnum_ok (h (ascii "max_attempts") (by simp)) 0 with ⟨attempts, hattempts⟩
  rw [submitRoute, hkey, hurl, hvisibility, hattempts]
  exact handed_ends _

theorem leaseRoute_ends (h : NumeralsAt r [ascii "worker"]) : Ends (leaseRoute r) := by
  rcases qnum_ok (h (ascii "worker") (by simp)) 0 with ⟨worker, hworker⟩
  rw [leaseRoute, hworker]
  exact handed_ends _

theorem ackJob_ends (h : NumeralsAt r [ascii "epoch", ascii "seq"]) (id : Option JobId) :
    Ends (ackJob r id) := by
  rcases textParam_ok r (ascii "result") with ⟨result, hresult⟩
  rcases qnum_ok (h (ascii "epoch") (by simp)) 0 with ⟨epoch, hepoch⟩
  rcases qnum_ok (h (ascii "seq") (by simp)) 0 with ⟨seq, hseq⟩
  cases id with
  | none => exact respond_ends _ _ _
  | some id =>
    rw [ackJob, hresult, hepoch, hseq]
    exact handed_ends _

/-- The job that an ack names. -/
def ackId (r : Request) : Option JobId :=
  (r.query.lookup (ascii "id")).bind fromHex

/-- The id is asked for only where the check has found one. -/
theorem ackRoute_eq (r : Request) : ackRoute r = ackJob r (ackId r) := by
  rcases hlookup : r.query.lookup (ascii "id") with _ | id
  · rw [ackRoute, ackId, hlookup]
    rfl
  · rw [ackRoute, ackId, valueAt, hlookup]
    rfl

/-- The path starts with what the handler cuts off. -/
theorem statusRoute_ends (h : ascii "/v1/jobs/" <+: r.path) : Ends (statusRoute r) := by
  rw [statusRoute, substr_ok h.length_le]
  change Ends (statusJob (fromHex (r.path.drop (ascii "/v1/jobs/").length)))
  cases fromHex (r.path.drop (ascii "/v1/jobs/").length) with
  | none => exact respond_ends _ _ _
  | some id => exact handed_ends _

end Handlers

/-! ### Routing -/

/-- The routes are those that were added. -/
theorem mem_route {H : Type} {method pre : Bytes} {h : H} {rs : List (Bytes × H)} {x : Bytes × H} :
    x ∈ route method pre h rs ↔ x ∈ rs ∨ x = (method ++ ascii " " ++ pre, h) := by
  rw [route, List.mem_insertionSort, List.mem_append, List.mem_singleton]

theorem splitRequestLine_method {line method target : Bytes}
    (h : splitRequestLine line = some (method, target)) : 32 ∉ method := by
  unfold splitRequestLine at h
  split at h
  · cases h
  · rename_i first rest hcut
    split at h
    · cases h
    · rw [Option.some.injEq, Prod.mk.injEq] at h
      rw [← h.1]
      exact not_mem_of_cut hcut

theorem parseBody_method {method target rest rest' : Bytes} {headers : Fields} {req : Request}
    (h : parseBody method target headers rest = .request req rest') : req.method = method := by
  unfold parseBody at h
  split at h
  · cases h
  · split at h
    · cases h
    · rw [← (Parsed.request.inj h).1]

/-- The method of a request has no space in it. -/
theorem method_of_parse {buf rest : Bytes} {req : Request} (h : parse buf = .request req rest) :
    32 ∉ req.method := by
  unfold parse at h
  split at h
  · unfold parseHead at h
    split at h
    · cases h
    · rename_i method target hsplit
      rw [parseBody_method h]
      exact splitRequestLine_method hsplit
  · cases h

/-- The path that the status route cuts is long enough: the route's key has its one space where
    that of the request is. -/
theorem path_of_status {req : Request} (hmethod : 32 ∉ req.method)
    (h : ascii "GET" ++ ascii " " ++ ascii "/v1/jobs/" <+: req.method ++ ascii " " ++ req.path) :
    ascii "/v1/jobs/" <+: req.path := by
  rw [List.append_assoc, List.append_assoc] at h
  have hget : (32 : UInt8) ∉ ascii "GET" := by decide
  exact (eq_of_prefix_separated hget hmethod h).2

/-- The parameters that the route of a request reads as numbers are numerals. -/
def NumbersFit (req : Request) : Prop :=
  ∀ h, findRoute routes req = some h → NumeralsAt req h.numbers

instance (r : Request) (ks : List Bytes) : Decidable (NumeralsAt r ks) :=
  inferInstanceAs (Decidable (∀ k ∈ ks, ∀ v ∈ r.query.lookup k, IsNumeral v))

instance (req : Request) : Decidable (NumbersFit req) :=
  inferInstanceAs (Decidable (∀ h ∈ findRoute routes req, NumeralsAt req h.numbers))

section Routed

variable {alive : List Endpoint} {metrics : Bytes} {req : Request} {h : Route}

/-- Every handler ends, on a request that was routed to it. -/
theorem route_ends {key : Bytes} (hmem : (key, h) ∈ routes)
    (hkey : key <+: req.method ++ ascii " " ++ req.path) (hmethod : 32 ∉ req.method)
    (hnum : NumeralsAt req h.numbers) : Ends (h.handle alive metrics req) := by
  simp only [routes, mem_route, List.not_mem_nil, false_or, Prod.mk.injEq] at hmem
  rcases hmem with (((((((⟨_, rfl⟩ | ⟨_, rfl⟩) | ⟨_, rfl⟩) | ⟨rfl, rfl⟩) | ⟨_, rfl⟩) | ⟨_, rfl⟩) |
    ⟨_, rfl⟩) | ⟨_, rfl⟩)
  · exact submitRoute_ends hnum
  · exact leaseRoute_ends hnum
  · rw [Route.handle, ackRoute_eq]
    exact ackJob_ends hnum (ackId req)
  · exact statusRoute_ends (path_of_status hmethod hkey)
  · exact respond_ends _ _ _
  · exact ⟨_, rfl, Or.inl rfl⟩
  · exact respond_ends _ _ _
  · exact respond_ends _ _ _

/-- A handler that reads numbers has handed an operation over when it ends, but for an ack that
    names no job. -/
theorem handed_of_ok {s : Served} (hs : h.handle alive metrics req = .ok s) :
    h.numbers = [] ∨ s.input.isSome ∨ h = .ack ∧ ackId req = none := by
  cases h with
  | submit =>
    rcases textParam_ok req (ascii "key") with ⟨key, hkey⟩
    rcases textParam_ok req (ascii "url") with ⟨url, hurl⟩
    rw [Route.handle, submitRoute, hkey, hurl] at hs
    rcases hvisibility : qnum req (ascii "visibility_ms") 0 with _ | visibility
    · rw [hvisibility] at hs
      cases hs
    · rcases hattempts : qnum req (ascii "max_attempts") 0 with _ | attempts
      · rw [hvisibility, hattempts] at hs
        cases hs
      · rw [hvisibility, hattempts] at hs
        cases hs
        exact Or.inr (Or.inl rfl)
  | lease =>
    rw [Route.handle, leaseRoute] at hs
    rcases hworker : qnum req (ascii "worker") 0 with _ | worker
    · rw [hworker] at hs
      cases hs
    · rw [hworker] at hs
      cases hs
      exact Or.inr (Or.inl rfl)
  | ack =>
    rw [Route.handle, ackRoute_eq] at hs
    rcases hid : ackId req with _ | id
    · exact Or.inr (Or.inr ⟨rfl, rfl⟩)
    · rcases textParam_ok req (ascii "result") with ⟨result, hresult⟩
      rw [hid, ackJob, hresult] at hs
      rcases hepoch : qnum req (ascii "epoch") 0 with _ | epoch
      · rw [hepoch] at hs
        cases hs
      · rcases hseq : qnum req (ascii "seq") 0 with _ | seq
        · rw [hepoch, hseq] at hs
          cases hs
        · rw [hepoch, hseq] at hs
          cases hs
          exact Or.inr (Or.inl rfl)
  | status | nodes | drain | healthz | metrics => exact Or.inl rfl

end Routed

theorem mem_of_findRoute {H : Type} {rs : List (Bytes × H)} {req : Request} {h : H}
    (hfind : findRoute rs req = some h) :
    ∃ key, (key, h) ∈ rs ∧ key <+: req.method ++ ascii " " ++ req.path := by
  rcases Option.map_eq_some_iff.mp hfind with ⟨⟨key, h'⟩, hfound, rfl⟩
  have hpre := List.find?_some hfound
  exact ⟨key, List.mem_of_find?_eq_some hfound, List.isPrefixOf_iff_prefix.mp hpre⟩

/-! ### Requests -/

/-- What comes of a buffer that holds a request: the operation for the queue node. -/
def received (buf : Bytes) : Option (Except Abort (Option Input)) :=
  match parse buf with
  | .request req _ => some ((serveRequest [] [] req).map (·.input))
  | .incomplete => none
  | .malformed => none

/-- A worker that is no number ends the node, and so does one that is too great. One with
    letters behind it is used, and a negative one is used for another. -/
theorem number_aborts :
    received (ascii "POST /v1/lease?worker=x HTTP/1.1\r\n\r\n") = some (.error .invalidArgument) ∧
    received (ascii "POST /v1/lease?worker=18446744073709551616 HTTP/1.1\r\n\r\n") =
      some (.error .outOfRange) ∧
    received (ascii "POST /v1/lease?worker=7x HTTP/1.1\r\n\r\n") =
      some (.ok (some (.lease 7))) ∧
    received (ascii "POST /v1/lease?worker=-1 HTTP/1.1\r\n\r\n") =
      some (.ok (some (.lease 4294967295))) :=
  ⟨by decide +kernel, by decide +kernel, by decide +kernel, by decide +kernel⟩

/-- A request that is parsed comes to a response or is in the hands of the queue node, with every
    number of it a numeral that is used as it is, exactly if its numeric parameters are numerals
    where its route reads them or it is an ack that names no job. -/
theorem request_served {buf rest : Bytes} {req : Request} (hparse : parse buf = .request req rest)
    (alive : List Endpoint) (metrics : Bytes) :
    (∃ s, serveRequest alive metrics req = .ok s ∧ (s.response.isSome ∨ s.input.isSome) ∧
      (s.input.isSome → ∀ h, findRoute routes req = some h → ∀ k ∈ h.numbers, ∀ v,
        req.query.lookup k = some v →
          IsNumeral v ∧ ∀ dflt, qnum req k dflt = .ok (digitsFrom 0 v))) ↔
    NumbersFit req ∨ findRoute routes req = some .ack ∧ ackId req = none := by
  constructor
  · rintro ⟨s, hs, -, hused⟩
    rcases hfind : findRoute routes req with _ | h
    · refine Or.inl fun h hh => ?_
      rw [hfind] at hh
      cases hh
    · rw [serveRequest, hfind] at hs
      rcases handed_of_ok hs with hnone | hinput | ⟨rfl, hid⟩
      · refine Or.inl fun h' hh k hk => ?_
        rw [hfind, Option.some.injEq] at hh
        rw [← hh, hnone] at hk
        cases hk
      · exact Or.inl fun h' hh k hk v hv => (hused hinput h' hh k hk v hv).1
      · exact Or.inr ⟨rfl, hid⟩
  · rintro (hfit | ⟨hack, hid⟩)
    · have hend : Ends (serveRequest alive metrics req) := by
        unfold serveRequest
        rcases hfind : findRoute routes req with _ | h
        · exact respond_ends _ _ _
        · rcases mem_of_findRoute hfind with ⟨key, hmem, hkey⟩
          exact route_ends hmem hkey (method_of_parse hparse) (hfit h hfind)
      rcases hend with ⟨s, hs, hends⟩
      refine ⟨s, hs, hends, fun _ h hfind k hk v hv => ?_⟩
      have hnumeral := hfit h hfind k hk v hv
      exact ⟨hnumeral, qnum_of_numeral hv hnumeral⟩
    · -- The ack is refused before a number is looked at.
      refine ⟨badId, ?_, Or.inl rfl, fun h => by cases h⟩
      rw [serveRequest, hack]
      change ackRoute req = _
      rw [ackRoute_eq, hid]
      rfl

/-- A test of the request a buffer holds. -/
def Parsed.any (p : Request → Bool) : Parsed → Bool
  | .request req _ => p req
  | .incomplete => false
  | .malformed => false

/-- A buffer that is written out holds a request that can be looked at. -/
theorem parse_shows {buf : Bytes} {P : Request → Prop} [DecidablePred P]
    (h : (parse buf).any (fun req => decide (P req)) = true) :
    ∃ req rest, parse buf = .request req rest ∧ P req := by
  rcases hparse : parse buf with _ | _ | ⟨req, rest⟩
  · rw [hparse] at h
    cases h
  · rw [hparse] at h
    cases h
  · rw [hparse] at h
    exact ⟨req, rest, rfl, of_decide_eq_true h⟩

/-- A submit with a visibility timeout, and an ack with no id and with an epoch that is no
    number. -/
theorem request_served_submit :
    (∃ req rest, parse (ascii "POST /v1/jobs?key=k&url=u&visibility_ms=500 HTTP/1.1\r\n\r\n") =
        .request req rest ∧ NumbersFit req ∧
      ∃ s, serveRequest [] [] req = .ok s ∧ (s.response.isSome ∨ s.input.isSome)) ∧
    ∃ req rest, parse (ascii "POST /v1/ack?epoch=x HTTP/1.1\r\n\r\n") = .request req rest ∧
      ¬ NumbersFit req ∧
      ∃ s, serveRequest [] [] req = .ok s ∧ (s.response.isSome ∨ s.input.isSome) := by
  have hsubmit : ∃ req rest,
      parse (ascii "POST /v1/jobs?key=k&url=u&visibility_ms=500 HTTP/1.1\r\n\r\n") =
        .request req rest ∧ NumbersFit req := parse_shows (by decide +kernel)
  have hack : ∃ req rest, parse (ascii "POST /v1/ack?epoch=x HTTP/1.1\r\n\r\n") =
      .request req rest ∧ ¬ NumbersFit req ∧
        (findRoute routes req = some .ack ∧ ackId req = none) := parse_shows (by decide +kernel)
  rcases hsubmit with ⟨req, rest, hparse, hfit⟩
  rcases hack with ⟨req', rest', hparse', hfit', hid⟩
  rcases (request_served hparse [] []).mpr (Or.inl hfit) with ⟨s, hs, hends, -⟩
  rcases (request_served hparse' [] []).mpr (Or.inr hid) with ⟨s', hs', hends', -⟩
  exact ⟨⟨req, rest, hparse, hfit, s, hs, hends⟩, req', rest', hparse', hfit', s', hs', hends'⟩

end Tautq.Http
