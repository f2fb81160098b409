import Tautq.Theory.React

/-!
# What a Takeover Learned

A claim merges what every grant reports, the state and the sequence number
separately, and is decided against whatever the claimer's copy has become by
then. This module says that nothing which was reported is forgotten: the copy is
at least as far as every report, and the job is offered for lease only where
nobody reported a lease.

`Collected` follows one claim through its grants and retries. Grants come in any
order, one member may grant several times, and each is merged though it is
counted once. The merged state has the highest rank reported, and the merged
number is the largest.

The decision is made in two places: `inherits` picks a record, and the table may
still refuse it. `inherited` is the copy that comes out, and `inherited_spec` says
in one case distinction what it is for each merged state.

## Main definitions

* `Collected`: A claim and the reports it has merged.
* `Node.inherited`: The copy a decided takeover leaves.

## Theorems

* `collected_best`: The merged state and number bound every report.
* `inherited_spec`: The copy a takeover leaves dominates what was merged.
* `finalizeTakeover_copy`: A takeover leaves that copy and offers it if ready.
* `takeover_dominates_reports`: A finalised takeover dominates every report.
-/

namespace Tautq

open Status

/-- A claim that started from a copy, and the states and sequence numbers it has been told
    since. -/
inductive Collected (start : Job) : List (JobState × Nat) → ClaimState → Prop where
  | opened (n : Node) (proposed : Nat) : Collected start [] (n.newClaim start proposed)
  | granted {reports : List (JobState × Nat)} {st : ClaimState} (h : Collected start reports st)
      (bit : Nat) (state : JobState) (leaseSeq : Nat) :
      Collected start (reports ++ [(state, leaseSeq)])
        ((st.count bit).merge (Reply.claimInfo state leaseSeq).asClaimInfo)
  | retried {reports : List (JobState × Nat)} {st : ClaimState} (h : Collected start reports st)
      (next : Time) : Collected start reports { st with nextRetry := next }

/-- What a claim knows of a job: its own copy at the start, and the reports. -/
def reported (start : Job) (reports : List (JobState × Nat)) : List (JobState × Nat) :=
  (start.state, start.leaseSeq) :: reports

/-- The merged state and number bound every report, and the merged state is one of the reports'. -/
theorem collected_best {start : Job} {reports : List (JobState × Nat)} {st : ClaimState}
    (h : Collected start reports st) :
    (∀ r ∈ reported start reports, r.1.rank ≤ st.bestState.rank ∧ r.2 ≤ st.bestSeq) ∧
      ∃ r ∈ reported start reports, r.1 = st.bestState := by
  induction h with
  | opened n proposed => simp [reported, Node.newClaim]
  | retried _ next ih => exact ih
  | @granted reports st h bit state leaseSeq ih =>
    rcases ih with ⟨hle, r, hr, hst⟩
    have hstate : (st.count bit).bestState = st.bestState := by
      unfold ClaimState.count
      split <;> rfl
    have hseq : (st.count bit).bestSeq = st.bestSeq := by
      unfold ClaimState.count
      split <;> rfl
    have hmem : ∀ x, x ∈ reported start (reports ++ [(state, leaseSeq)]) ↔
        x ∈ reported start reports ∨ x = (state, leaseSeq) := fun x => by simp [reported, or_assoc]
    simp only [Reply.asClaimInfo, ClaimState.merge, hstate, hseq]
    constructor
    · intro x hx
      rcases (hmem x).mp hx with hold | rfl
      · have hx := hle x hold
        constructor
        · split <;> omega
        · split <;> omega
      · constructor
        · change state.rank ≤ _
          split <;> omega
        · change leaseSeq ≤ _
          split <;> omega
    · split
      · exact ⟨(state, leaseSeq), (hmem _).mpr (Or.inr rfl), rfl⟩
      · exact ⟨r, (hmem _).mpr (Or.inl hr), hst⟩

namespace Node

/-- The copy a decided takeover leaves. -/
def inherited (id : JobId) (st : ClaimState) (j : Job) : Job :=
  match inherits id st j with
  | none => j
  | some r => r.on j

end Node

/-- The copy a takeover leaves dominates what was merged: the terminal states are kept in their
    order, and short of them the number is at least the merged one. It is ready only where ready
    was merged and the copy had the number already. -/
theorem inherited_spec (id : JobId) (st : ClaimState) (j : Job) :
    (st.bestState = .done → (Node.inherited id st j).state = .done) ∧
    (st.bestState = .deadLetter → (Node.inherited id st j).terminal = true) ∧
    ((Node.inherited id st j).terminal = true ∨ st.bestSeq ≤ (Node.inherited id st j).leaseSeq) ∧
    ((Node.inherited id st j).state = .ready → st.bestState = .ready ∧
      st.bestSeq ≤ (Node.inherited id st j).leaseSeq) := by
  unfold Node.inherited Node.inherits
  by_cases hdone : st.bestState = .done ∧ j.state ≠ .done
  · simp [hdone, Record.on, Job.terminal]
  rw [if_neg hdone]
  by_cases hdead : st.bestState = .deadLetter ∧ j.state ≠ .done ∧ j.state ≠ .deadLetter
  · simp [hdead, Record.on, Job.terminal]
  rw [if_neg hdead]
  by_cases hterm : j.terminal = true
  · -- The table refuses a lease of a copy that is over.
    have hstay : ∀ (epoch seq worker : Nat), (Record.lease id epoch seq worker).on j = j := by
      intro epoch seq worker
      rw [Record.on, if_neg]
      rintro ⟨_, hne, hne'⟩
      simp [Job.terminal, hne, hne'] at hterm
    have hcopy : (match (if (st.bestState = .leased ∨ j.leaseSeq < st.bestSeq) ∧
        (j.state ≠ .leased ∨ j.leaseSeq < st.bestSeq) then some (Record.lease id j.epoch
          (if j.leaseSeq < st.bestSeq then st.bestSeq else j.leaseSeq) 0) else none) with
        | none => j
        | some r => r.on j) = j := by
      split
      · rfl
      · rename_i r hr
        split at hr
        · rw [← Option.some.inj hr, hstay]
        · cases hr
    rw [hcopy]
    refine ⟨fun h => ?_, fun _ => hterm, Or.inl hterm, fun h => ?_⟩
    · by_contra hne
      exact hdone ⟨h, hne⟩
    · simp [Job.terminal, h] at hterm
  · have hact : j.state ≠ .done ∧ j.state ≠ .deadLetter := by simpa [Job.terminal] using hterm
    have hbest : st.bestState ≠ .done ∧ st.bestState ≠ .deadLetter :=
      ⟨fun h => hdone ⟨h, hact.1⟩, fun h => hdead ⟨h, hact⟩⟩
    refine ⟨fun h => absurd h hbest.1, fun h => absurd h hbest.2, ?_⟩
    by_cases hlease : (st.bestState = .leased ∨ j.leaseSeq < st.bestSeq) ∧
        (j.state ≠ .leased ∨ j.leaseSeq < st.bestSeq)
    · -- The lease is recorded under the larger number.
      rw [if_pos hlease]
      simp only [Record.on, hact, ne_eq, not_false_eq_true, le_refl, and_self,
        if_true, reduceCtorEq, false_implies, and_true]
      right
      split <;> omega
    · rw [if_neg hlease]
      have hseq : st.bestSeq ≤ j.leaseSeq := by
        by_contra hlt
        exact hlease ⟨Or.inr (by omega), Or.inr (by omega)⟩
      refine ⟨Or.inr hseq, fun hready => ⟨?_, hseq⟩⟩
      have hne : st.bestState ≠ .leased := fun h => hlease ⟨Or.inl h, Or.inl (by simp [hready])⟩
      cases hb : st.bestState with
      | ready => rfl
      | leased => exact absurd hb hne
      | done => exact absurd hb hbest.1
      | deadLetter => exact absurd hb hbest.2

/-- Committing the merged knowledge with an append that works leaves the inherited copy. -/
theorem inherit_copy {n : Node} {id : JobId} {j : Job} (st : ClaimState)
    (hfind : n.find id = some j)
    (hopen : n.store.failed = false) (hdisk : n.sched.disk.headD .durable = .durable) :
    (n.inherit id st j).find id = some (Node.inherited id st j) ∧
      (n.inherit id st j).ready = n.ready := by
  -- The timer is armed or not; neither touches the copy or the queue.
  have harm : ∀ m : Node, (if Node.rearms st j then
      { m with leaseDeadline := m.leaseDeadline.insert id (m.now + j.visibilityMs) } else m).find
        id = m.find id ∧ (if Node.rearms st j then
      { m with leaseDeadline := m.leaseDeadline.insert id (m.now + j.visibilityMs) } else m).ready =
        m.ready := by
    intro m
    split <;> exact ⟨rfl, rfl⟩
  unfold Node.inherit Node.inherited
  cases hinh : Node.inherits id st j with
  | none =>
    rcases harm n with ⟨hsame, hready⟩
    exact ⟨hsame.trans hfind, hready⟩
  | some r =>
    rcases harm (n.commit r).1 with ⟨hsame, hready⟩
    have hcommit : (n.commit r).1 = { n with
        store := n.store.append r
        sched := { n.sched with disk := n.sched.disk.tail } } := by
      simp only [Node.commit, Store.commit, hopen, hdisk, Bool.false_eq_true, if_false]
    refine ⟨hsame.trans ?_, hready.trans (by rw [hcommit])⟩
    rw [hcommit]
    exact find_append_of_found n.store (inherits_spec hinh).1 hfind

/-- A takeover whose append works leaves the inherited copy, and offers the job for lease where
    that copy is ready. -/
theorem finalizeTakeover_copy {n : Node} {id : JobId} {st : ClaimState} {j : Job}
    (hclaim : n.claims.lookup id = some st) (hfind : n.find id = some j) (hown : j.owner = n.self)
    (hopen : n.store.failed = false) (hdisk : n.sched.disk.headD .durable = .durable) :
    (n.finalizeTakeover id).find id = some (Node.inherited id st j) ∧
      (n.finalizeTakeover id).ready =
        if (Node.inherited id st j).state = .ready then n.ready ++ [id] else n.ready := by
  have hfind' : ({ n with claims := n.claims.erase id } : Node).find id = some j := hfind
  have hfinal : n.finalizeTakeover id =
      (({ n with claims := n.claims.erase id } : Node).inherit id st j).activate id := by
    simp only [Node.finalizeTakeover, hclaim, hfind', hown, ne_eq, not_true_eq_false, if_false]
  rcases inherit_copy (n := { n with claims := n.claims.erase id }) st hfind' hopen hdisk with
    ⟨hcopy, hready⟩
  rw [hfinal]
  generalize ({ n with claims := n.claims.erase id } : Node).inherit id st j = m at hcopy hready
  simp only [Node.activate, hcopy]
  constructor
  · split
    · exact hcopy
    · split <;> exact hcopy
  · split
    · simp only [Node.emit, hready]
    · split <;> exact hready

/-- Whatever the grants of a claim reported, in whatever order and however often: a finalised
    takeover leaves a done copy if any of them, or the claimer's own copy at the start, was done;
    otherwise a parked or done one if any was parked; otherwise one that is over or has at least
    every reported lease sequence. The job is offered for lease only if all of them were ready
    with no larger sequence than the copy's. -/
theorem takeover_dominates_reports (n : Node) (id : JobId) (j start : Job)
    (reports : List (JobState × Nat)) (st : ClaimState) (hclaim : n.claims.lookup id = some st)
    (hcollected : Collected start reports st) (hfind : n.find id = some j) (hown : j.owner = n.self)
    (hopen : n.store.failed = false) (hdisk : n.sched.disk.headD .durable = .durable) :
    ∃ k, (n.finalizeTakeover id).find id = some k ∧
      ((∃ r ∈ reported start reports, r.1 = .done) → k.state = .done) ∧
      ((∀ r ∈ reported start reports, r.1 ≠ .done) →
        (∃ r ∈ reported start reports, r.1 = .deadLetter) → k.state = .deadLetter ∨
        k.state = .done) ∧
      ((∀ r ∈ reported start reports, r.1 ≠ .done ∧ r.1 ≠ .deadLetter) →
        k.terminal = true ∨ ∀ r ∈ reported start reports, r.2 ≤ k.leaseSeq) ∧
      ((n.finalizeTakeover id).ready ≠ n.ready → (n.finalizeTakeover id).ready = n.ready ++ [id] ∧
        ∀ r ∈ reported start reports, r.1 = .ready ∧ r.2 ≤ k.leaseSeq) := by
  rcases finalizeTakeover_copy hclaim hfind hown hopen hdisk with ⟨hcopy, hready⟩
  rcases inherited_spec id st j with ⟨hdone, hdead, hseq, hidle⟩
  rcases collected_best hcollected with ⟨hbound, r₀, hr₀, hbest⟩
  -- Only done ranks with done, and only the two terminal states rank with parked.
  have htop : ∀ s : JobState, JobState.rank .done ≤ s.rank → s = .done := by
    intro s h
    cases s with
    | done => rfl
    | ready | leased | deadLetter => simp [JobState.rank] at h
  refine ⟨_, hcopy, ?_, ?_, ?_, ?_⟩
  · rintro ⟨r, hr, hst⟩
    exact hdone (htop _ (hst ▸ (hbound r hr).1))
  · rintro hnone ⟨r, hr, hst⟩
    have hrank := (hbound r hr).1
    rw [hst] at hrank
    have hparked : st.bestState = .deadLetter := by
      have hne := hnone r₀ hr₀
      rw [hbest] at hne
      cases hb : st.bestState with
      | deadLetter => rfl
      | done => exact absurd hb hne
      | ready | leased => simp [hb, JobState.rank] at hrank
    have hover := hdead hparked
    simp only [Job.terminal, Bool.or_eq_true, decide_eq_true_eq] at hover
    exact hover.symm
  · intro _
    exact hseq.imp (fun h => h) (fun h r hr => (hbound r hr).2.trans h)
  · intro hne
    by_cases hst : (Node.inherited id st j).state = .ready
    · rw [if_pos hst] at hready
      refine ⟨hready, fun r hr => ?_⟩
      rcases hidle hst with ⟨hmerged, hle⟩
      refine ⟨?_, (hbound r hr).2.trans hle⟩
      have hrank := (hbound r hr).1
      rw [hmerged] at hrank
      cases hs : r.1 with
      | ready => rfl
      | leased | done | deadLetter => simp [hs, JobState.rank] at hrank
    · rw [if_neg hst] at hready
      exact absurd hready hne

namespace Claimer

/-- The claimer's copy after its own takeover record. -/
def copy : Job where
  id := {}
  idemKey := [1]
  url := [1]
  body := [7]
  visibilityMs := 30000
  maxAttempts := 5
  replicas := { first := ⟨2, 1⟩, second := ⟨1, 1⟩, third := ⟨3, 1⟩ }
  state := .ready
  owner := ⟨1, 1⟩
  epoch := 2
  leaseSeq := 0
  attempts := 0

/-- A claim that has heard of a lease the claimer never saw. -/
def claim : ClaimState where
  proposed := 2
  acks := 1
  needed := 1
  bestState := .leased
  bestSeq := 3
  ackedMask := 4
  nextRetry := 1000

/-- The claimer, about to finalise. -/
def node : Node where
  self := ⟨1, 1⟩
  cfg := { members := [] }
  boot := 1
  store := (default : Store).append (.submit copy)
  claims := AList.insert {} claim ∅

end Claimer

/-- The claimer inherits the lease it never saw and does not offer the job. -/
theorem takeover_dominates_reports_lease :
    Collected Claimer.copy [(.leased, 3)] Claimer.claim ∧
    ∃ k, (Claimer.node.finalizeTakeover {}).find {} = some k ∧
      (k.terminal = true ∨ 3 ≤ k.leaseSeq) ∧
      (Claimer.node.finalizeTakeover {}).ready = Claimer.node.ready := by
  have hcollected : Collected Claimer.copy [(.leased, 3)] Claimer.claim :=
    Collected.granted (.opened Claimer.node 2) 4 .leased 3
  rcases takeover_dominates_reports Claimer.node {} Claimer.copy Claimer.copy [(.leased, 3)]
    Claimer.claim rfl hcollected rfl rfl rfl rfl with ⟨k, hk, _, _, hseq, _⟩
  exact ⟨hcollected, k, hk,
    (hseq (by decide)).imp (fun h => h) (fun h => h (.leased, 3) (by decide)),
    rfl⟩

end Tautq
