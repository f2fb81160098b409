import Tautq.Core.Submit
import Tautq.Theory.Merge

/-!
# Merging Copies

Full copies of a job travel on several paths and arrive in any order, some of
them more than once. What is left of them does not depend on that: a table keeps
a copy of the largest rank, and the largest rank is a matter of which copies
there were.

A status query merges in the same way, though it is spread over time. It asks one
target after the other, remembers the best copy so far in the callback it leaves
behind, and looks at its own copy when its own turn comes, which may be in the
middle of the list. `Query` follows one query from callback to callback, whatever
has happened to the node in between, and keeps the copies the query has heard.

## Main definitions

* `Node.ownCopies`, `copiesIn`: The copies a query hears from its own node and
  from a reply.
* `Node.AsksNext`, `Node.Reports`: A callback sends the next request, or reports.
* `Query`, `Reported`: A query that waits for a reply, and one that has reported.
* `Proceeds`: What one callback of a query does.

## Theorems

* `queryStatusTarget_spec`: What one callback of a query makes of the copies it
  hears.
* `query_best`, `reported_best`: The remembered copy has the largest rank heard.
* `copies_merge_in_any_order`: Merging full copies does not depend on their order,
  and no copy advances past what is kept or reported.
-/

namespace Tautq

open Status

/-- The copies a query hears from its own node while it passes over targets. -/
def Node.ownCopies (n : Node) (id : JobId) (visited : List Endpoint) : List Job :=
  visited.filterMap (fun e => if e = n.self then n.find id else none)

/-- The copy a query hears from a reply, if it is one of the job. -/
def copiesIn (id : JobId) (code : Status) (body : Reply) : List Job :=
  match body.asJob with
  | none => []
  | some remote => if code = kCreated ∧ remote.id = id then [remote] else []

/-- A callback of a query passes over some targets and sends the next one the request. -/
def Node.AsksNext (n n' : Node) (id : JobId) (targets visited rest : List Endpoint)
    (best : Option Job) : Prop :=
  ∃ dst reqId call, targets = visited ++ dst :: rest ∧
    n'.outbox = n.outbox ++ [.request n.self dst n.boot reqId (.fwdStatus id)] ∧
    n'.calls.lookup reqId = some call ∧ call.cont = .fwdStatus id rest best

/-- A callback of a query reports to the client. -/
def Node.Reports (n n' : Node) (id : JobId) (st : Status) (best : Option Job) : Prop :=
  n'.events = .statusAnswered id st best :: n.events

/-- A query that waits for a reply: the targets after it, the copy it remembers, and the copies
    it has heard. -/
inductive Query (id : JobId) : List Endpoint → Option Job → List Job → Prop where
  | start (n : Node) {targets visited rest : List Endpoint} {best : Option Job}
      (asks : n.AsksNext (Node.queryStatusTarget id targets none n) id targets visited rest best) :
      Query id rest best (n.ownCopies id visited)
  | reply (n : Node) {targets visited rest : List Endpoint} {best best' : Option Job}
      {heard : List Job} (code : Status) (body : Reply) (query : Query id targets best heard)
      (asks : n.AsksNext (n.onStatusReply id targets best code body) id targets
      visited rest best') :
      Query id rest best' (heard ++ copiesIn id code body ++ n.ownCopies id visited)

/-- A query has reported, having heard these copies. -/
inductive Reported (id : JobId) : Status → Option Job → List Job → Prop where
  | start (n : Node) {targets : List Endpoint} {st : Status} {best : Option Job}
      (reports : n.Reports (Node.queryStatusTarget id targets none n) id st best) :
      Reported id st best (n.ownCopies id targets)
  | reply (n : Node) {targets : List Endpoint} {best best' : Option Job} {heard : List Job}
      {st : Status} (code : Status) (body : Reply) (query : Query id targets best heard)
      (reports : n.Reports (n.onStatusReply id targets best code body) id st best') :
      Reported id st best' (heard ++ copiesIn id code body ++ n.ownCopies id targets)

section Query

variable {n : Node} {id : JobId}

theorem better_eq_argAux (best : Option Job) (j : Job) :
    Node.better best j = List.argAux (fun b c => c.rank < b.rank) best j :=
  (show Node.better best j = (Record.replicate j).effect best by
    cases best with
    | none => rfl
    | some b =>
      rw [Node.better, Record.effect, Record.on]
      split <;> rfl).trans (effect_replicate_argAux best j)

/-- The better of the remembered copy and the copies heard after it. -/
theorem foldl_better_argmax (heard cs : List Job) :
    cs.foldl Node.better (heard.argmax Job.rank) = (heard ++ cs).argmax Job.rank := by
  rw [List.argmax, List.argmax, List.foldl_append]
  exact congrArg (List.foldl · _ cs) (funext₂ better_eq_argAux)

theorem ownCopies_cons_self {e : Endpoint} (he : e = n.self) (visited : List Endpoint) :
    n.ownCopies id (e :: visited) = (n.find id).toList ++ n.ownCopies id visited := by
  rw [Node.ownCopies, List.filterMap_cons, if_pos he, Node.ownCopies]
  cases n.find id <;> rfl

theorem ownCopies_cons_other {e : Endpoint} (he : e ≠ n.self) (visited : List Endpoint) :
    n.ownCopies id (e :: visited) = n.ownCopies id visited := by
  rw [Node.ownCopies, List.filterMap_cons, if_neg he, Node.ownCopies]

/-- One callback of a query merges the copies it passes, and waits for a reply or reports. -/
def Proceeds (n n' : Node) (id : JobId) (targets : List Endpoint) (best : Option Job) : Prop :=
  (∃ visited rest, n.AsksNext n' id targets visited rest
      ((n.ownCopies id visited).foldl Node.better best) ∧ n'.events = n.events) ∨
    n'.outbox = n.outbox ∧
      ∃ st, n.Reports n' id st ((n.ownCopies id targets).foldl Node.better best)

/-- Passing over a target leaves the rest to be done from a node with the same name, store and
    history. -/
theorem Proceeds.skip {m n' : Node} {target : Endpoint} {targets : List Endpoint}
    {best best' : Option Job} (h : Proceeds m n' id targets best') (hself : m.self = n.self)
    (hboot : m.boot = n.boot) (hstore : m.store = n.store) (hout : m.outbox = n.outbox)
    (hev : m.events = n.events)
    (hfold : ∀ visited, (n.ownCopies id (target :: visited)).foldl Node.better best =
      (n.ownCopies id visited).foldl Node.better best') :
    Proceeds n n' id (target :: targets) best := by
  have hown : ∀ visited, m.ownCopies id visited = n.ownCopies id visited := fun visited => by
    rw [Node.ownCopies, Node.ownCopies, hself, Node.find, Node.find, hstore]
  rcases h with ⟨visited, rest, ⟨dst, reqId, call, hsplit, hsent, hcall, hk⟩, hquiet⟩ |
    ⟨hquiet, st, htold⟩
  · refine Or.inl ⟨target :: visited, rest, ⟨dst, reqId, call, ?_, ?_, hcall, ?_⟩, hquiet.trans hev⟩
    · rw [hsplit, List.cons_append]
    · rw [hsent, hself, hboot, hout]
    · rw [hk, hfold, hown]
  · refine Or.inr ⟨hquiet.trans hout, st, ?_⟩
    rw [Node.Reports, hfold, ← hown, ← hev]
    exact htold

/-- What one callback of a query does: it passes over its own node and over targets that
    refuse the request. -/
theorem queryStatusTarget_spec (targets : List Endpoint) (best : Option Job) (n : Node) :
    Proceeds n (Node.queryStatusTarget id targets best n) id targets best := by
  induction targets generalizing best n with
  | nil => exact Or.inr ⟨rfl, _, rfl⟩
  | cons target targets ih =>
    by_cases hme : target = n.self
    · -- The node looks at its own copy.
      have heq : Node.queryStatusTarget id (target :: targets) best n =
          Node.queryStatusTarget id targets ((n.find id).toList.foldl Node.better best) n := by
        rw [Node.queryStatusTarget, if_pos hme]
        cases n.find id <;> rfl
      rw [heq]
      refine (ih _ n).skip rfl rfl rfl rfl rfl (fun visited => ?_)
      rw [ownCopies_cons_self hme, List.foldl_append]
    · rw [Node.queryStatusTarget, if_neg hme, Node.call]
      split
      · -- The request is refused, and the callback goes on at once.
        refine (ih best _).skip rfl rfl rfl rfl rfl (fun visited => ?_)
        rw [ownCopies_cons_other hme]
      · exact Or.inl ⟨[], targets, ⟨target, n.nextReq, _, rfl, rfl, AList.lookup_insert _, rfl⟩,
          rfl⟩

/-- A callback that sends the next request has merged what it heard on the way. -/
theorem AsksNext.best {targets visited rest : List Endpoint} {best best' : Option Job}
    (h : n.AsksNext (Node.queryStatusTarget id targets best n) id targets visited rest best') :
    best' = (n.ownCopies id visited).foldl Node.better best := by
  rcases h with ⟨dst, reqId, call, hsplit, hsent, hcall, hk⟩
  rcases queryStatusTarget_spec targets best n with
    ⟨visited₁, rest₁, ⟨dst₁, reqId₁, call₁, hsplit₁, hsent₁, hcall₁, hk₁⟩, _⟩ | ⟨hquiet, _⟩
  · have hreq : reqId₁ = reqId := by
      have hlast := List.append_cancel_left (hsent₁.symm.trans hsent)
      simp only [List.cons.injEq, Packet.request.injEq] at hlast
      exact hlast.1.2.2.2.1
    subst hreq
    rw [Option.some.inj (hcall₁.symm.trans hcall), hk] at hk₁
    cases hk₁
    -- The targets after the request are the same, so those before it are.
    have hsame := hsplit₁.symm.trans hsplit
    rw [List.append_inj_left' hsame (by simp)]
  · rw [hquiet] at hsent
    exact absurd hsent (by simp)

/-- A callback that reports has merged what it heard on the way. -/
theorem Reports.best {targets : List Endpoint} {best best' : Option Job} {st : Status}
    (h : n.Reports (Node.queryStatusTarget id targets best n) id st best') :
    best' = (n.ownCopies id targets).foldl Node.better best := by
  rw [Node.Reports] at h
  rcases queryStatusTarget_spec targets best n with ⟨_, _, _, hquiet⟩ | ⟨_, st', htold⟩
  · rw [hquiet] at h
    exact absurd h (by simp)
  · rw [Node.Reports] at htold
    rw [htold, List.cons.injEq, Event.statusAnswered.injEq] at h
    exact h.1.2.2.symm

/-- A reply is merged, and the query goes on. -/
theorem onStatusReply_eq (targets : List Endpoint) (best : Option Job) (code : Status)
    (body : Reply) : n.onStatusReply id targets best code body =
      Node.queryStatusTarget id targets ((copiesIn id code body).foldl Node.better best) n := by
  unfold Node.onStatusReply copiesIn
  cases body.asJob with
  | none => rfl
  | some remote =>
    by_cases h : code = kCreated ∧ remote.id = id
    · simp only [if_pos h, List.foldl_cons, List.foldl_nil]
    · simp only [if_neg h, List.foldl_nil]

/-- The copy a query remembers has the largest rank it has heard. -/
theorem query_best {targets : List Endpoint} {best : Option Job} {heard : List Job}
    (h : Query id targets best heard) : best = heard.argmax Job.rank := by
  induction h with
  | start n asks =>
    rw [AsksNext.best asks]
    exact foldl_better_argmax [] _
  | reply n code body _ asks ih =>
    rw [onStatusReply_eq] at asks
    rw [AsksNext.best asks, ih, foldl_better_argmax, foldl_better_argmax]

theorem reported_best {st : Status} {best : Option Job} {heard : List Job}
    (h : Reported id st best heard) : best = heard.argmax Job.rank := by
  cases h with
  | start n reports =>
    rw [Reports.best reports]
    exact foldl_better_argmax [] _
  | reply n code body query reports =>
    rw [onStatusReply_eq] at reports
    rw [Reports.best reports, query_best query, foldl_better_argmax, foldl_better_argmax]

end Query

/-- The merge rule is a strict weak order whose ties agree on epoch, state and lease sequence; a
    table without a job is left with one version of it by the same copies in any order, and no
    copy advances past it; nor does a copy that answered a status query advance past the one
    that is reported. -/
theorem copies_merge_in_any_order :
    IsStrictWeakOrder Job (fun a b => jobAdvances a b = true) ∧
    (∀ a b, jobAdvances a b = false → jobAdvances b a = false → a.version = b.version) ∧
    (∀ (t : Table) (id : JobId) (cs cs' : List Job), t.find id = none → (∀ j ∈ cs, j.id = id) →
      (∀ j, j ∈ cs' ↔ j ∈ cs) → cs ≠ [] →
      ∃ l l', ((cs.map Record.replicate).foldl Table.apply t).find id = some l ∧
        ((cs'.map Record.replicate).foldl Table.apply t).find id = some l' ∧
        l.version = l'.version ∧ ∀ j ∈ cs, jobAdvances l j = false ∧ jobAdvances l' j = false) ∧
    ∀ id st best heard, Reported id st best heard → (heard ≠ [] → ∃ l ∈ heard, best = some l) ∧
      ∀ l, best = some l → ∀ j ∈ heard, jobAdvances l j = false := by
  refine ⟨jobAdvances_strict, fun a b h h' => ?_, ?_, fun id st best heard h => ?_⟩
  · rw [jobAdvances_eq_false] at h h'
    exact (rank_eq_iff a b).mp (le_antisymm h' h)
  · intro t id cs cs' hnew hid hsame hne
    rw [find_replicate t hid hnew, find_replicate t (fun j hj => hid j ((hsame j).mp hj)) hnew]
    cases hm : cs.argmax Job.rank with
    | none => exact absurd (List.argmax_eq_none.mp hm) hne
    | some l =>
      have hversion := argmax_version hsame
      rw [hm, Option.map_some, Option.map_eq_some_iff] at hversion
      rcases hversion with ⟨l', hm', hv⟩
      refine ⟨l, l', rfl, hm', hv.symm, fun j hj => ?_⟩
      rw [jobAdvances_eq_false, jobAdvances_eq_false]
      exact ⟨List.le_of_mem_argmax hj hm, List.le_of_mem_argmax ((hsame j).mpr hj) hm'⟩
  · have hbest := reported_best h
    constructor
    · intro hne
      cases hm : heard.argmax Job.rank with
      | none => exact absurd (List.argmax_eq_none.mp hm) hne
      | some l => exact ⟨l, List.argmax_mem hm, hbest.trans hm⟩
    · intro l hl j hj
      rw [jobAdvances_eq_false]
      exact List.le_of_mem_argmax hj (hbest.symm.trans hl)

namespace Three

/-- A copy of a job in a given state. -/
def copy (state : JobState) (epoch leaseSeq : Nat) : Job where
  id := {}
  idemKey := [1]
  url := [1]
  body := [7]
  visibilityMs := 30000
  maxAttempts := 5
  replicas := {}
  state
  owner := {}
  epoch
  leaseSeq
  attempts := leaseSeq

/-- A node that has stored one copy. -/
def node : Node :=
  (({ self := ⟨1, 1⟩, cfg := { members := [] }, boot := 1 } : Node).commit
    (.submit (copy .leased 1 1))).1

end Three

/-- Three copies merge to the parked one of the later epoch in both orders, and a query that
    hears the node's own copy and then a done one reports the done one. -/
theorem copies_merge_in_any_order_three :
    (∃ l l', (([Three.copy .done 1 2, Three.copy .ready 2 0, Three.copy .deadLetter 2 1].map
        Record.replicate).foldl Table.apply {}).find {} = some l ∧
      (([Three.copy .deadLetter 2 1, Three.copy .ready 2 0, Three.copy .done 1 2,
        Three.copy .ready 2 0].map Record.replicate).foldl Table.apply {}).find {} = some l' ∧
      l.version = l'.version) ∧
    ∃ heard best, Reported {} kCreated (some best) heard ∧ Three.copy .leased 1 1 ∈ heard ∧
      best.state = .done ∧ ∀ j ∈ heard, jobAdvances best j = false := by
  have hasks : Three.node.AsksNext (Node.queryStatusTarget {} [⟨1, 1⟩, ⟨2, 1⟩] none Three.node) {}
      [⟨1, 1⟩, ⟨2, 1⟩] [⟨1, 1⟩] [] (some (Three.copy .leased 1 1)) :=
    ⟨⟨2, 1⟩, 1, _, rfl, rfl, rfl, rfl⟩
  have hreported : Reported {} kCreated (some (Three.copy .done 1 1)) _ :=
    .reply Three.node kCreated (.job (Three.copy .done 1 1)) (.start Three.node hasks) rfl
  refine ⟨?_, _, _, hreported, by decide, rfl, ?_⟩
  · rcases copies_merge_in_any_order.2.2.1 {} {}
      [Three.copy .done 1 2, Three.copy .ready 2 0, Three.copy .deadLetter 2 1]
      [Three.copy .deadLetter 2 1, Three.copy .ready 2 0, Three.copy .done 1 2,
        Three.copy .ready 2 0]
      rfl (by decide) (fun j => by simp; tauto) (by decide) with ⟨l, l', hl, hl', hv, _⟩
    exact ⟨l, l', hl, hl', hv⟩
  · exact (copies_merge_in_any_order.2.2.2 _ _ _ _ hreported).2 _ rfl

end Tautq
