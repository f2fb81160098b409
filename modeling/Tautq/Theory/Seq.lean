import Tautq.Theory.Birth

/-!
# Where Lease Sequence Numbers Come From

What a node knows of a job's state and lease sequence number, in its copy, in
a grant reply or in a standing claim, goes back to records that some node has
logged. Copies take it from a record or from another copy, a grant reports
what a copy has, and a claim keeps the best it has heard of. So a fact about a
state and a number that new jobs have, that logged records keep and that
claims do not lose by merging holds wherever they turn up (`Traceable`).

A number other than zero is that of a logged lease (`Known`).

The claims are the one place that reads a reply without looking at what it
answers, so there the statement asks for matched responses.

## Main definitions

* `Logged`, `LeaseLogged`: A record, or a lease, in some node's log.
* `Traceable`: A fact about states and numbers that goes along with logged records.
* `Known`: A state and a sequence number that go back to a logged lease.

## Theorems

* `Move.logged_step`, `Move.logged_cases`: A move adds at most one record to the logs.
* `Traceable.held`: A traced fact holds of every copy.
* `Traceable.granted`, `Traceable.claims`: And of what a grant reports and a claim has merged.
* `known_traceable`: Numbers go back to logged leases.
-/

namespace Tautq

open Status Cluster

/-- A record in some node's log. -/
def Logged (w : World) (r : Record) : Prop :=
  ∃ e, r ∈ (w e).store.log

/-- A lease of a job in some node's log. -/
def LeaseLogged (w : World) (id : JobId) (leaseSeq : Nat) : Prop :=
  ∃ epoch worker, Logged w (.lease id epoch leaseSeq worker)

theorem Logged.grows {w w' : World} {r : Record} (h : w.Grows w') (hr : Logged w r) :
    Logged w' r := by
  rcases hr with ⟨e, he⟩
  exact ⟨e, (h e).log.subset he⟩

/-- A move adds at most one record to the logs, one it writes. -/
theorem Move.logged_step {w : World} {e : Endpoint} {t : Trigger} {m₀ m m' : Node}
    (hmove : Move t m₀ m m') :
    (∀ r, Logged (Function.update w e m') r → Logged (Function.update w e m) r) ∨
      ∃ r₁, Writes t m₀ m r₁ ∧ m.store.failed = false ∧
        ∀ r, Logged (Function.update w e m') r → Logged (Function.update w e m) r ∨ r = r₁ := by
  -- Only the log of `e` can have changed.
  have hback : ∀ r, Logged (Function.update w e m') r →
      Logged (Function.update w e m) r ∨ r ∈ m'.store.log := by
    rintro r ⟨x, hx⟩
    by_cases hxe : x = e
    · subst hxe
      rw [Function.update_self] at hx
      exact Or.inr hx
    · refine Or.inl ⟨x, ?_⟩
      rw [Function.update_of_ne hxe] at hx ⊢
      exact hx
  have hold : ∀ r, r ∈ m.store.log → Logged (Function.update w e m) r :=
    fun r h => ⟨e, by rw [Function.update_self]; exact h⟩
  rcases hmove.log_cases with heq | ⟨r₁, hw, open_, heq⟩
  · refine Or.inl fun r hr => ?_
    rcases hback r hr with h | hmem
    · exact h
    · exact hold r (heq ▸ hmem)
  · refine Or.inr ⟨r₁, hw, open_, fun r hr => ?_⟩
    rcases hback r hr with h | hmem
    · exact Or.inl h
    · rw [heq, List.mem_append, List.mem_singleton] at hmem
      rcases hmem with hmem | rfl
      · exact Or.inl (hold r hmem)
      · exact Or.inr rfl

/-- A record was logged before, or is the one a move writes. -/
theorem Move.logged_cases {w : World} {e : Endpoint} {t : Trigger} {m₀ m m' : Node} {r : Record}
    (hmove : Move t m₀ m m') (h : Logged (Function.update w e m') r) :
    Logged (Function.update w e m) r ∨ (Writes t m₀ m r ∧ m.store.failed = false) := by
  rcases hmove.logged_step with hsame | ⟨r₁, hw, open_, hstep⟩
  · exact Or.inl (hsame r h)
  · rcases hstep r h with hold | rfl
    · exact Or.inl hold
    · exact Or.inr ⟨hw, open_⟩

/-- A fact about the state and the lease sequence number of a job that logged records keep,
    and claims when they merge two of them. -/
structure Traceable (P : World → JobId → JobState → Nat → Prop) : Prop where
  grows : ∀ {w w' : World} {id : JobId} {state : JobState} {leaseSeq : Nat}, w.Grows w' →
    P w id state leaseSeq → P w' id state leaseSeq
  fresh : ∀ w id, P w id .ready 0
  on : ∀ {w : World} {l : Job} {r : Record}, P w r.jobId l.state l.leaseSeq → r.full = none →
    Logged w r → P w r.jobId (r.on l).state (r.on l).leaseSeq
  merge : ∀ {w : World} {id : JobId} {st : ClaimState} {state : JobState} {leaseSeq : Nat},
    P w id st.bestState st.bestSeq → P w id state leaseSeq →
      P w id (st.merge (some (some state, leaseSeq))).bestState
        (st.merge (some (some state, leaseSeq))).bestSeq

section Invariants

variable {K : Cond} {d : Deployment} {P : World → JobId → JobState → Nat → Prop}

/-- A traced fact holds of every copy ever held. -/
theorem Traceable.held (hP : Traceable P) :
    Always K d (fun w => ∀ e, ∀ id j, Held (w e).store.log id j →
    P w id j.state j.leaseSeq) := by
  refine always_of_node
    (Q := fun w n => ∀ id j, Held n.store.log id j → P w id j.state j.leaseSeq)
    (fun hg h id j hj => hP.grows hg (h id j hj)) (fun e id j hj => ?_)
    (fun {c e t m m'} hin hc hm hgrow hmove => ?_)
  · exact absurd hj (not_held_nil id j)
  · have hold : ∀ id j, Held m.store.log id j →
        P (Function.update c.node e m') id j.state j.leaseSeq := by
      intro id j hj
      exact hP.grows hgrow (hm id j hj)
    refine hmove.held_rule hold (fun r j hw _ hr _ => ?_) (fun r l hw hmem hr hfind _ => ?_)
    · -- A full copy is fresh, or was held by whoever sent it.
      rcases hin.full_origin hw hr with ⟨p, rfl, _⟩ | ⟨_, src, _, hheld⟩
      · exact hP.fresh _ _
      · exact hP.grows (hin.tail hmove).grows (hc src _ j hheld)
    · refine hP.on (hold _ l (Node.held_of_find hfind)) hr ⟨e, ?_⟩
      rw [Function.update_self]
      exact hmem

/-- A traced fact holds of what a grant reports. -/
theorem Traceable.granted (hP : Traceable P) :
    Always K d (fun w => ∀ e, ∀ dst id proposed o st state leaseSeq,
    Replied w e dst (.claim id proposed o) st (.claimInfo state leaseSeq) →
      P w id state leaseSeq) := by
  have hlocal : Always K d (fun w => ∀ e, ∀ dst boot reqId id proposed o st state leaseSeq,
      .response (w e).self dst boot reqId (.claim id proposed o) st (.claimInfo state leaseSeq) ∈
        (w e).outbox → P w id state leaseSeq) := by
    refine always_of_node
      (Q := fun w n => ∀ dst boot reqId id proposed o st state leaseSeq,
        .response n.self dst boot reqId (.claim id proposed o) st (.claimInfo state leaseSeq) ∈
          n.outbox → P w id state leaseSeq)
      (fun hg h dst boot reqId id proposed o st state leaseSeq hp =>
        hP.grows hg (h dst boot reqId id proposed o st state leaseSeq hp))
      (fun e => by simp [Deployment.init]) (fun {c e t m m'} hin hc hm hgrow hmove => ?_)
    intro dst boot reqId id proposed o st state leaseSeq hp
    have hcopy : ∀ j, m.find id = some j →
        P (Function.update c.node e m') id j.state j.leaseSeq := by
      intro j hj
      have hk := hP.held.inside hin e id j
      rw [Function.update_self] at hk
      exact hP.grows hgrow (hk (Node.held_of_find hj))
    rw [hmove.self_eq.1] at hp
    rcases hmove.response_cases hp with hold | hnew
    · exact hP.grows hgrow (hm dst boot reqId id proposed o st state leaseSeq hold)
    · generalize hasked : Request.claim id proposed o = asked at hnew
      cases hnew with
      | regrant ctx id' j trigger hasked' found =>
        rw [hasked', Request.claim.injEq] at hasked
        exact hcopy j (hasked.1 ▸ found)
      | serve ctx r _ serves =>
        cases serves with
        | claim id' proposed' l trigger hasked' found =>
          rw [hasked', Request.claim.injEq] at hasked
          exact hcopy l (hasked.1 ▸ found)
  have hget : ∀ w : World, (∀ e, (w e).self = e) →
      (∀ e, ∀ dst boot reqId id proposed o st state leaseSeq,
        .response (w e).self dst boot reqId (.claim id proposed o) st (.claimInfo state leaseSeq) ∈
          (w e).outbox → P w id state leaseSeq) →
      ∀ e, ∀ dst id proposed o st state leaseSeq,
        Replied w e dst (.claim id proposed o) st (.claimInfo state leaseSeq) →
          P w id state leaseSeq := by
    rintro w hnames h e dst id proposed o st state leaseSeq ⟨boot, reqId, hp⟩
    exact h e dst boot reqId id proposed o st state leaseSeq (by rw [hnames]; exact hp)
  exact ⟨fun hr => hget _ (sane.reach hr).names (hlocal.reach hr),
    fun hin => hget _ (sane.inside hin).names (hlocal.inside hin)⟩

theorem ClaimState.count_best (st : ClaimState) (bit : Nat) :
    (st.count bit).bestState = st.bestState ∧ (st.count bit).bestSeq = st.bestSeq ∧
      (st.count bit).proposed = st.proposed ∧ (st.count bit).needed = st.needed := by
  unfold ClaimState.count
  split <;> exact ⟨rfl, rfl, rfl, rfl⟩

/-- A matched grant reports the state and the number of a copy. -/
theorem Inside.granted {c : Cluster} {e : Endpoint} {t : Trigger} {m : Node} {id : JobId}
    {dst : Endpoint} {body : Reply} (hin : Inside K d c e t m) (hK : Matched c e t)
    (h : Answers t (c.node e) (.claim id dst) kCreated body) :
    ∃ proposed state leaseSeq, body = .claimInfo state leaseSeq ∧ dst ≠ e ∧
      Replied c.node dst e (.claim id proposed e) kCreated body := by
  rcases hin.answered h with ⟨src, asked, hrep, hfits, hexp | ⟨_, hnot⟩⟩
  · cases hexp with
    | claim _ proposed other =>
      rcases hfits with ⟨_, state, leaseSeq, hbody⟩ | ⟨hne, _⟩
      · exact ⟨proposed, state, leaseSeq, hbody, other, hrep⟩
      · exact absurd rfl hne
  · exact absurd hK hnot

/-- A traced fact holds of what a standing claim has merged. -/
theorem Traceable.claims (hP : Traceable P) (hK : ∀ c e t, K c e t → Matched c e t) :
    Always K d (fun w => ∀ e, ∀ id st, (w e).claims.lookup id = some st →
      P w id st.bestState st.bestSeq) := by
  refine always_of_node
    (Q := fun w n => ∀ id st, n.claims.lookup id = some st → P w id st.bestState st.bestSeq)
    (fun hg h id st hst => hP.grows hg (h id st hst)) (fun e id st hst => by cases hst)
    (fun {c e t m m'} hin hc hm hgrow hmove => ?_)
  intro id st hst
  have hheld := hP.held.inside hin e
  rw [Function.update_self] at hheld
  cases hmove.stands hst with
  | seize l found _ _ _ _ _ _ after =>
    rw [after]
    exact hP.grows hgrow (hheld id l (Node.held_of_find found))
  | kept st' standing _ _ merged =>
    have hold := hm id st' standing
    rcases merged with ⟨hstate, hseq⟩ | ⟨dst, body, bit, answers, rfl⟩
    · rw [hstate, hseq]
      exact hP.grows hgrow hold
    · rcases hin.granted (hK c e t hin.allowed) answers with
        ⟨proposed, state, leaseSeq, rfl, _, hrep⟩
      have hinfo := hP.granted.reach hin.reach dst e id proposed e kCreated state leaseSeq hrep
      have hbest := st'.count_best bit
      rw [← hbest.1, ← hbest.2.1] at hold
      exact hP.merge (hP.grows hgrow hold) (hP.grows (hin.tail hmove).grows hinfo)

/-- A claim that needs no grant has nothing to inherit. -/
theorem inherits_alone {id : JobId} {st : ClaimState} {l : Job} (hstate : st.bestState = l.state)
    (hseq : st.bestSeq = l.leaseSeq) : Node.inherits id st l = none := by
  unfold Node.inherits
  rw [hstate, hseq]
  cases l.state <;> simp

/-- A traced fact holds of what a claim knows when it becomes active. -/
theorem Traceable.ripe {c : Cluster} {e : Endpoint} {t : Trigger} {m : Node} {id : JobId}
    {st : ClaimState} (hP : Traceable P) (hK : ∀ c e t, K c e t → Matched c e t)
    (hin : Inside K d c e t m) (h : Ripe t (c.node e) m id st) :
    P (Function.update c.node e m) id st.bestState st.bestSeq := by
  cases h with
  | granted dst body st₀ bit answers standing merged =>
    rcases hin.granted (hK c e t hin.allowed) answers with
      ⟨proposed, state, leaseSeq, rfl, _, hrep⟩
    have hinfo := hP.granted.reach hin.reach dst e id proposed e kCreated state leaseSeq hrep
    have hold := (hP.claims hK).reach hin.reach e id st₀ standing
    have hbest := st₀.count_best bit
    rw [← hbest.1, ← hbest.2.1] at hold
    rw [merged]
    exact hP.grows hin.grows (hP.merge hold hinfo)
  | alone l found hstate hseq =>
    have hl := hP.held.inside hin e id l
    rw [Function.update_self] at hl
    rw [hstate, hseq]
    exact hl (Node.held_of_find found)

end Invariants

/-! ### Numbers -/

/-- A state and a sequence number that go back to a logged lease, or to none. -/
def Known (w : World) (id : JobId) (state : JobState) (leaseSeq : Nat) : Prop :=
  (leaseSeq = 0 ∧ state ≠ .leased) ∨ LeaseLogged w id leaseSeq

theorem Known.grows {w w' : World} {id : JobId} {state : JobState} {leaseSeq : Nat} (h : w.Grows w')
    (hk : Known w id state leaseSeq) : Known w' id state leaseSeq := by
  rcases hk with hz | ⟨epoch, worker, hl⟩
  · exact Or.inl hz
  · exact Or.inr ⟨epoch, worker, hl.grows h⟩

/-- A transition leaves a known number known, a lease bringing its own. -/
theorem Known.on {w : World} {id : JobId} {l : Job} {r : Record}
    (hl : Known w id l.state l.leaseSeq) (hr : r.full = none)
    (hlog : Logged w r) (hid : r.jobId = id) : Known w id (r.on l).state (r.on l).leaseSeq := by
  -- Leaving the leased state never needs a lease.
  have hweak : ∀ s : JobState, s ≠ .leased → Known w id s l.leaseSeq := by
    intro s hs
    rcases hl with ⟨hz, _⟩ | hlease
    · exact Or.inl ⟨hz, hs⟩
    · exact Or.inr hlease
  cases r with
  | submit | replicate => simp [Record.full] at hr
  | lease id' epoch s worker =>
    change id' = id at hid
    subst hid
    simp only [Record.on]
    split
    · exact Or.inr ⟨epoch, worker, hlog⟩
    · exact hl
  | done | expire | deadLetter =>
    simp only [Record.on]
    split
    · exact hweak _ (by simp)
    · exact hl
  | takeover id' epoch o =>
    have hsame := takeover_on_state id' epoch o l
    rw [hsame.1, hsame.2]
    exact hl

/-- Merging two known reports gives a known one. -/
theorem Known.merge {w : World} {id : JobId} {st : ClaimState} {state : JobState} {leaseSeq : Nat}
    (hst : Known w id st.bestState st.bestSeq) (h : Known w id state leaseSeq) :
    Known w id (st.merge (some (some state, leaseSeq))).bestState
      (st.merge (some (some state, leaseSeq))).bestSeq := by
  simp only [ClaimState.merge]
  by_cases hlt : st.bestSeq < leaseSeq
  · -- A larger number is not zero.
    rw [if_pos hlt]
    rcases h with ⟨hz, _⟩ | hlog
    · omega
    · exact Or.inr hlog
  · rw [if_neg hlt]
    rcases hst with ⟨hz, hne⟩ | hlog
    · split
      · rcases h with ⟨hz', hne'⟩ | hlog'
        · exact Or.inl ⟨hz, hne'⟩
        · have heq : leaseSeq = st.bestSeq := by omega
          exact Or.inr (heq ▸ hlog')
      · exact Or.inl ⟨hz, hne⟩
    · exact Or.inr hlog

/-- Numbers go back to logged leases. -/
theorem known_traceable : Traceable Known where
  grows := Known.grows
  fresh _ _ := Or.inl ⟨rfl, nofun⟩
  on h hr hlog := h.on hr hlog rfl
  merge := Known.merge

/-- The sequence number of every copy ever held goes back to a logged lease. -/
theorem held_known {K : Cond} {d : Deployment} : Always K d (fun w => ∀ e, ∀ id j,
    Held (w e).store.log id j → Known w id j.state j.leaseSeq) :=
  known_traceable.held

end Tautq
