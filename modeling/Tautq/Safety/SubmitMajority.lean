import Tautq.Safety.Runs
import Tautq.Theory.Answers

/-!
# An Acknowledged Submit Is on a Majority

A first submit is answered when one replica has stored a copy. A repeated one
is answered at once from the owner's index, whether or not the first has
reached anybody, so a client that retries is told that its job is safe while
one node has it (`duplicate_alone`).

The conditions are that a submit which finds its key indexed finds the job
stored on a second node, where there is one, and that responses reach the
incarnation that asked: an answer to an earlier incarnation can finish a
replicate call of the current one. Under them every positive answer, the
relayed ones included, is about a job on two nodes (`Safe`).

## Main definitions

* `Node.has`: Whether a node has a copy of a job.
* `SubmitStored`: The conditions.
* `Safe`: The job is on two nodes, or its owner has no peer.

## Theorems

* `duplicate_alone`: A duplicate of a job on one node.
* `submitted_majority`: Under the conditions there are two.
-/

namespace Tautq

open Status Cluster

/-- Whether a node has a copy of a job. -/
def Node.has (n : Node) (id : JobId) : Prop :=
  (n.find id).isSome = true

instance (n : Node) (id : JobId) : Decidable (n.has id) :=
  inferInstanceAs (Decidable ((n.find id).isSome = true))

/-- The key of a submit this node handles as the owner. -/
def Trigger.submits (t : Trigger) (n : Node) : Option Bytes :=
  match t with
  | .input (.submit p) =>
    if Ring.ownerFor p.idemKey n.members = n.self then some p.idemKey else none
  | .packet (.request _ _ _ _ (.fwdSubmit p)) => some p.idemKey
  | _ => none

/-- A submit that finds its key indexed finds the job on a second node, unless the
    job has no other member. -/
def DuplicatesStored : Cond := fun c e t =>
  ∀ key ∈ t.submits (c.node e), ∀ j ∈ (c.node e).store.table.findByIdem key,
    j.peers e = [] ∨ ∃ x ∈ c.members, x ≠ e ∧ (c.node x).has j.id

/-- Responses are matched, and duplicates are of jobs on two nodes. -/
def SubmitStored : Cond := fun c e t =>
  Matched c e t ∧ DuplicatesStored c e t

instance (c : Cluster) (e : Endpoint) (t : Trigger) : Decidable (SubmitStored c e t) :=
  have : Decidable (DuplicatesStored c e t) :=
    inferInstanceAs (Decidable (∀ key ∈ t.submits (c.node e),
      ∀ j ∈ (c.node e).store.table.findByIdem key,
        j.peers e = [] ∨ ∃ x ∈ c.members, x ≠ e ∧ (c.node x).has j.id))
  inferInstanceAs (Decidable (Matched c e t ∧ DuplicatesStored c e t))

/-! ### A duplicate of a job on one node -/

namespace Trio

/-- A client retries before any copy of its job has left the owner. -/
def retried : List Act :=
  views ++ [.does a (.submit params), .does a (.submit params)]

end Trio

/-- The retry is answered as a duplicate, and no other node has the job. -/
theorem duplicate_alone : ∃ c, Trio.cluster.init.exec Trio.retried = some c ∧
    .submitAnswered [1] kDuplicate Trio.job ∈ (c.node Trio.a).events ∧
    ((c.node Trio.a).find Trio.job).map (fun j => j.replicas.pinned) =
    some [Trio.a, Trio.b, Trio.c] ∧
    ¬ (c.node Trio.b).has Trio.job ∧ ¬ (c.node Trio.c).has Trio.job :=
  run_shows (by decide +kernel)

/-! ### Where a job is -/

theorem Node.has_of_find {n : Node} {id : JobId} {j : Job} (h : n.find id = some j) : n.has id := by
  rw [Node.has, h]
  rfl

/-- A node keeps the jobs it has. -/
theorem Node.has_grows {n n' : Node} {id : JobId} (hg : Grows n n') (h : n.has id) : n'.has id := by
  rcases Option.isSome_iff_exists.mp h with ⟨l, hl⟩
  rw [Node.find, n.store.replayed] at hl
  rcases replay_find_mono hg.wal hl with ⟨l', hl'⟩
  rw [← n'.store.replayed] at hl'
  exact n'.has_of_find hl'

/-- A full copy that is appended is stored, or something ahead of it is. -/
theorem Node.has_append {m m' : Node} {r : Record} {j : Job} (hr : r.full = some j)
    (hs : m'.store = m.store.append r) : m'.has j.id := by
  have hid : r.jobId = j.id := (Record.full_jobId hr).symm
  have hfind : m'.find j.id = r.effect (m.store.table.find j.id) := by
    rw [Node.find, hs]
    exact (Table.find_apply _ _ _).trans (if_pos hid)
  cases hold : m.store.table.find j.id with
  | none =>
    rw [hold, Record.effect, hr] at hfind
    exact m'.has_of_find hfind
  | some l =>
    rw [hold, Record.effect] at hfind
    exact m'.has_of_find hfind

/-- The job is on two nodes, or a node has it that has nobody to share it with. -/
def Safe (w : World) (id : JobId) : Prop :=
  ∃ o, (w o).has id ∧
    ((∃ x, x ≠ o ∧ (w x).has id) ∨ ∃ j, Held (w o).store.log id j ∧ j.peers o = [])

theorem Safe.grows {w w' : World} {id : JobId} (hg : w.Grows w') (h : Safe w id) : Safe w' id := by
  rcases h with ⟨o, ho, ⟨x, hx, hxh⟩ | ⟨j, hj, hp⟩⟩
  · exact ⟨o, (w o).has_grows (hg o) ho, Or.inl ⟨x, hx, (w x).has_grows (hg x) hxh⟩⟩
  · exact ⟨o, (w o).has_grows (hg o) ho, Or.inr ⟨j, hj.mono (hg o).log, hp⟩⟩

/-! ### The invariants -/

/-- Whoever confirmed a replicate request has the job; so has the owner of a pending submit,
    and a second node once no replica is needed. -/
structure Owes (w : World) (n : Node) : Prop where
  stored : ∀ dst boot reqId j body,
    .response n.self dst boot reqId (.replicate j) kCreated body ∈ n.outbox → n.has j.id
  pending : ∀ id ps, n.pendingSubmits.lookup id = some ps →
    n.has id ∧ (ps.needed ≤ 0 → ∃ x, x ≠ n.self ∧ (w x).has id)

theorem Owes.mono {w w' : World} {n : Node} (hg : w.Grows w') (h : Owes w n) : Owes w' n where
  stored := h.stored
  pending id ps hps := by
    rcases h.pending id ps hps with ⟨hown, hother⟩
    refine ⟨hown, fun hn => ?_⟩
    rcases hother hn with ⟨x, hx, hxh⟩
    exact ⟨x, hx, (w x).has_grows (hg x) hxh⟩

section Invariants

variable {K : Cond} {d : Deployment} {c : Cluster} {e : Endpoint} {t : Trigger} {m m' : Node}

theorem Submits.key {p : SubmitParams} {cb : SubmitCb} {m₀ : Node} (h : Submits t m p cb)
    (hself : m.self = m₀.self) (hmem : m.members = m₀.members) :
    t.submits m₀ = some p.idemKey := by
  cases h with
  | client ht _ howner =>
    rw [hself, hmem] at howner
    rw [ht, Trigger.submits, if_pos howner]
  | forwarded ctx ht ha =>
    rcases Trigger.eq_of_ctx ht with ⟨dst, rfl⟩
    rw [ha, Trigger.submits]

/-- The configured membership is fixed, so a submit has the key it had when the step
    began. -/
theorem Inside.submit_key (hin : Inside K d c e t m) {p : SubmitParams} {cb : SubmitCb}
    (h : Submits t m p cb) : t.submits (c.node e) = some p.idemKey := by
  have hself : m.self = (c.node e).self := by
    rw [hin.self_eq, (names.reach hin.reach e).1]
  have hcfg : m.cfg = (c.node e).cfg := by
    have hn := (names.inside hin e).2
    rw [Function.update_self] at hn
    rw [hn, (names.reach hin.reach e).2]
  exact h.key hself (by rw [Node.members, Node.members, hself, hcfg])

/-- Where responses are matched, whoever confirms a replicate request has the job. -/
theorem Inside.replica_has (hK : Matched c e t) (hin : Inside K d c e t m)
    (hc : ∀ x, Owes c.node (c.node x)) {id : JobId} {slot : Nat} {st : Status} {body : Reply}
    (h : Answers t (c.node e) (.replicate id slot) st body)
    (hst : st = kCreated ∨ st = kDuplicate) : ∃ x, x ≠ e ∧ (c.node x).has id := by
  rcases hin.answered h with ⟨src, asked, hrep, hfits, hexp | ⟨_, hnot⟩⟩
  · cases hexp with
    | replicate j _ peer =>
      have hcreated : st = kCreated := hst.resolve_right hfits.1
      rcases hrep with ⟨boot, reqId, hp⟩
      rw [hcreated] at hp
      have hname := (names.reach hin.reach src).1
      exact ⟨src, (mem_peers peer).1,
        (hc src).stored e boot reqId j body (by rw [hname]; exact hp)⟩
  · exact absurd hK hnot

theorem owes_pending (hK : Matched c e t) (hin : Inside K d c e t m)
    (hc : ∀ x, Owes c.node (c.node x)) (hm : Owes (Function.update c.node e m) m)
    (hmove : Move t (c.node e) m m') (id : JobId) (ps : PendingSubmit)
    (hps : m'.pendingSubmits.lookup id = some ps) :
    m'.has id ∧ (ps.needed ≤ 0 → ∃ x, x ≠ m'.self ∧ (Function.update c.node e m' x).has id) := by
  have hgrow := World.grows_update c.node e hmove.grows
  have hself := hmove.self_eq.1
  have hkeep : ∀ id ps, m.pendingSubmits.lookup id = some ps →
      m'.has id ∧ (ps.needed ≤ 0 → ∃ x, x ≠ m'.self ∧ (Function.update c.node e m' x).has id) := by
    intro id ps hps
    have hp := (hm.mono hgrow).pending id ps hps
    exact ⟨m.has_grows hmove.grows hp.1, by rw [hself]; exact hp.2⟩
  cases hmove.waits hps with
  | kept found => exact hkeep id ps found
  | mint p submits stored same needed =>
    rw [same]
    exact ⟨Node.has_append (r := .submit (m.mintJob p)) rfl stored, fun hn => by omega⟩
  | count ps' found cb h =>
    rcases hkeep id ps' found with ⟨hhas, hother⟩
    refine ⟨hhas, fun hn => ?_⟩
    rcases h with hneed | ⟨slot, st, body, hst, answers⟩
    · exact hother (hneed ▸ hn)
    · -- The reply that is being counted is of a node that has the job.
      rcases hin.replica_has hK hc answers hst with ⟨x, hx, hxh⟩
      refine ⟨x, by rw [hself, hin.self_eq]; exact hx, ?_⟩
      rw [Function.update_of_ne hx]
      exact hxh

theorem owes (hK : ∀ c e t, K c e t → Matched c e t) : Always K d (fun w => ∀ e, Owes w (w e)) := by
  refine always_of_node (fun hg => Owes.mono hg)
    (fun e => by constructor <;> simp [Deployment.init]) (fun {c e t m m'} hin hc hm _ hmove => ?_)
  have hwire := wire.inside hin e
  rw [Function.update_self] at hwire
  refine ⟨?_, owes_pending (hK c e t hin.allowed) hin hc hm hmove⟩
  intro dst boot reqId j body hp
  rw [hmove.self_eq.1] at hp
  rcases hmove.response_cases hp with hold | hnew
  · exact m.has_grows hmove.grows (hm.stored dst boot reqId j body hold)
  · rcases hnew.confirms hwire (Or.inl ⟨j, rfl⟩) with ⟨ctx, r, _, ha, serves, stored⟩
    cases serves with
    | copy j' trigger ha' =>
      have hj : j' = j := Request.replicate.inj (ha'.symm.trans ha)
      subst hj
      exact Node.has_append (r := .replicate j') rfl stored
    | apply _ epoch l trigger ha' =>
      rw [ha] at ha'
      cases ha'
    | claim id' proposed l trigger ha' =>
      rw [ha] at ha'
      cases ha'

/-- A pending submit that needs no replica any more is of a job on two nodes. -/
theorem Inside.pending_safe (hK : ∀ c e t, K c e t → Matched c e t) (hin : Inside K d c e t m)
    (hmove : Move t (c.node e) m m') {id : JobId} {ps : PendingSubmit}
    (found : m.pendingSubmits.lookup id = some ps) (hneed : ps.needed ≤ 0) :
    m'.has id ∧ ∃ x, x ≠ e ∧ (c.node x).has id := by
  have hm := (owes hK).inside hin e
  rw [Function.update_self] at hm
  rcases hm.pending id ps found with ⟨hhas, hother⟩
  rcases hother hneed with ⟨x, hx, hxh⟩
  rw [hin.self_eq] at hx
  rw [Function.update_of_ne hx] at hxh
  exact ⟨m.has_grows hmove.grows hhas, x, hx, hxh⟩

/-- A positive answer to a submit is about a safe job. -/
theorem Inside.submit_safe (hK : ∀ c e t, K c e t → SubmitStored c e t) (hin : Inside K d c e t m)
    (hmove : Move t (c.node e) m m') {cb : SubmitCb} {st : Status} {id : JobId}
    (h : SubmitTold t (c.node e) m m' cb st id) (hst : Positive st) :
    Safe (Function.update c.node e m') id := by
  have hme := hin.self_eq
  -- The owner has the job; a second node has it or there is none.
  have hsafe : ∀ id, m'.has id → ((∃ x, x ≠ e ∧ (c.node x).has id) ∨
      ∃ j, Held m'.store.log id j ∧ j.peers e = []) → Safe (Function.update c.node e m') id := by
    intro id hhas hrest
    refine ⟨e, by rw [Function.update_self]; exact hhas, ?_⟩
    rcases hrest with ⟨x, hx, hxh⟩ | ⟨j, hj, hp⟩
    · exact Or.inl ⟨x, hx, by rw [Function.update_of_ne hx]; exact hxh⟩
    · exact Or.inr ⟨j, by rw [Function.update_self]; exact hj, hp⟩
  cases h with
  | alone p _ submits writes peers stored =>
    have hfull : (Record.submit (m.mintJob p)).full = some (m.mintJob p) := rfl
    have hhas := Node.has_append hfull stored
    rcases Option.isSome_iff_exists.mp hhas with ⟨j, hj⟩
    refine hsafe _ hhas (Or.inr ⟨j, Node.held_of_find hj, ?_⟩)
    -- The stored copy is the minted one: its id was new.
    have hsame : SameJob j (m.mintJob p) := by
      have hsane := sane.inside (hin.tail hmove)
      have hborn := (hsane.find (e := e) (by rw [Function.update_self]; exact hj)).1
      rcases hborn.birth with ⟨b, hb, hjb, _⟩
      have hmint : Minted (Function.update c.node e m') (m.mintJob p) := by
        refine ⟨e, ?_⟩
        rw [Function.update_self]
        refine m'.store.wal_prefix_log.subset ?_
        rw [stored]
        exact List.mem_append_right _ (List.mem_singleton.mpr rfl)
      have hbb := minted_unique hsane.names hsane.mints hb hmint
        (hjb.id.symm.trans (m'.store.find_id hj))
      exact hbb ▸ hjb
    rw [hsame.peers e, ← hme]
    exact peers
  | duplicate p _ j submits found first =>
    have hfound : (c.node e).store.table.findByIdem p.idemKey = some j := by
      rw [← first]
      exact found
    have hfind : m.find j.id = some j := by
      rcases Option.bind_eq_some_iff.mp found with ⟨id', _, hj⟩
      rw [m.store.find_id hj]
      exact hj
    refine hsafe _ (m.has_grows hmove.grows (m.has_of_find hfind)) ?_
    rcases (hK c e t hin.allowed).2 p.idemKey (hin.submit_key submits) j hfound with
      hp | ⟨x, _, hx, hxh⟩
    · exact Or.inr ⟨j, (Node.held_of_find hfind).mono hmove.log_prefix, hp⟩
    · exact Or.inl ⟨x, hx, hxh⟩
  | refuse => rcases hst with h | h <;> cases h
  | answered _ ps _ found h =>
    rcases h with ⟨_, hneed⟩ | h
    · rcases hin.pending_safe (fun c e t h => (hK c e t h).1) hmove found hneed with ⟨hhas, hother⟩
      exact hsafe id hhas (Or.inl hother)
    · rw [h] at hst
      rcases hst with h | h <;> cases h

end Invariants

/-- In every run that meets the conditions, a job whose submit was answered
    positively is stored somewhere, and with two pinned members on two of them. -/
theorem submitted_majority (d : Deployment) (acts : List Act) (c : Cluster)
    (hrun : d.init.exec acts = some c) (hK : d.init.Meets SubmitStored acts) (e : Endpoint)
    (key : Bytes) (st : Status) (id : JobId) (hst : st = kCreated ∨ st = kDuplicate)
    (hev : .submitAnswered key st id ∈ (c.node e).events) :
    ∃ o j, (c.node o).find id = some j ∧ (2 ≤ j.replicas.pinned.toFinset.card →
      ∃ x ∈ j.replicas.pinned, ∃ y ∈ j.replicas.pinned,
        x ≠ y ∧ (c.node x).has id ∧ (c.node y).has id) := by
  have hreach := Reach.of_run hrun hK
  have hsane := sane.reach hreach
  have hanswers := always_answered (d := d) (P := fun w _ id => Safe w id) (fun _ _ _ h => h.1)
    (fun _ h => h) Safe.grows
    (fun hin hmove h hst => hin.submit_safe (fun _ _ _ h => h) hmove h hst)
  rcases (hanswers.reach hreach e).told key st id hst hev with ⟨o, ho, hrest⟩
  rcases Option.isSome_iff_exists.mp ho with ⟨j, hj⟩
  refine ⟨o, j, hj, fun hcard => ?_⟩
  rcases hrest with ⟨x, hx, hxh⟩ | ⟨l, hl, hpeers⟩
  · rcases Option.isSome_iff_exists.mp hxh with ⟨j', hj'⟩
    exact ⟨o, hreach.pinned hj hj, x, hreach.pinned hj hj', hx.symm, ho, hxh⟩
  · -- A node that shares the job with nobody is its only pinned member.
    have hsame := hsane.same hl (Node.held_of_find hj)
    exact absurd (hsame.peers o ▸ hpeers) (peers_ne_nil hcard o)

namespace Trio

/-- A submit through the gateway `b`, stored by `c` first, and a retry at the owner. -/
def relayed : List Act :=
  views ++
    [.does b (.submit params), .takes b 0, .takes a 1, .takes c 0, .takes a 2,
      .does a (.submit params)]

end Trio

/-- The conditions are met by a run with a relayed answer and a duplicate. -/
theorem submitted_majority_relayed : ∃ c, Trio.cluster.init.exec Trio.relayed = some c ∧
    Trio.cluster.init.Meets SubmitStored Trio.relayed ∧
    .submitAnswered [1] kDuplicate Trio.job ∈ (c.node Trio.a).events ∧
    .submitAnswered [1] kCreated Trio.job ∈ (c.node Trio.b).events ∧
    ∃ x y, x ≠ y ∧ (c.node x).has Trio.job ∧ (c.node y).has Trio.job := by
  have hK : Trio.cluster.init.Meets SubmitStored Trio.relayed := by decide +kernel
  have hshow : ∃ c, Trio.cluster.init.exec Trio.relayed = some c ∧
      .submitAnswered [1] kDuplicate Trio.job ∈ (c.node Trio.a).events ∧
      .submitAnswered [1] kCreated Trio.job ∈ (c.node Trio.b).events ∧
      ∀ o ∈ [Trio.a, Trio.b, Trio.c], ∀ j ∈ (c.node o).find Trio.job,
        j.replicas.pinned = [Trio.a, Trio.b, Trio.c] := run_shows (by decide +kernel)
  rcases hshow with ⟨c, hc, ha, hb, hpinned⟩
  rcases submitted_majority _ _ c hc hK Trio.b [1] kCreated Trio.job (Or.inl rfl) hb with
    ⟨o, j, hj, hmajority⟩
  have ho : o ∈ [Trio.a, Trio.b, Trio.c] := by
    by_contra hnot
    rw [idle_of_not_mem (Reach.of_run hc hK) hnot] at hj
    cases hj
  rw [hpinned o ho j hj] at hmajority
  rcases hmajority (by decide) with ⟨x, _, y, _, hne, hx, hy⟩
  exact ⟨c, hc, hK, ha, hb, x, y, hne, hx, hy⟩

end Tautq
