import Mathlib.Data.Prod.Lex
import Tautq.Theory.Owners

/-!
# Versions of a Copy

An owner takes a job through one version after the other, and what it asks its
replicas to store is always one of them: a full copy, or the record that led to
it. This module compares the two. Two copies are of one version when they agree
on the epoch, the state, the lease sequence number and the owner. A request
carries a version when the copy it leaves behind, where it is applied properly,
is of that version.

Within an epoch an owner goes forward only. Leases and expiries take turns with
rising numbers, then the job is parked or done, and a parked job may still be
done. `Job.stage` is the place in this order, so no two versions of one epoch
are taken for each other.

## Main definitions

* `Agree`: Two copies are of one version.
* `Record.leaves`, `Request.carries`: The version a record or a request is about.
* `Record.meets`: A replica's copy from which a record leads to a version.
* `Job.stage`: The place of a version within its epoch.
* `Moved`, `Onward`: What an owner's records do to its own copy.
* `Cont.confirms`: The slot the reply to a call confirms.
* `Calls`: A pending call that confirms a slot is about a version its node had.

## Theorems

* `Record.agree_on`: A record that meets the right copy leads to the version.
* `Request.carries_stage`: A request carries one version.
* `Transition.stage_lt`: A transition goes forward.
* `calls_to`: `Calls` holds of every node at all times.
-/

namespace Tautq

open Status Cluster

/-- Two copies are of one version. -/
def Agree (j l : Job) : Prop :=
  j.epoch = l.epoch ∧ j.state = l.state ∧ j.leaseSeq = l.leaseSeq ∧ j.owner = l.owner

instance (j l : Job) : Decidable (Agree j l) :=
  inferInstanceAs (Decidable (_ ∧ _))

namespace Agree

variable {j k l : Job}

theorem refl (j : Job) : Agree j j := ⟨rfl, rfl, rfl, rfl⟩

theorem symm (h : Agree j l) : Agree l j :=
  ⟨h.1.symm, h.2.1.symm, h.2.2.1.symm, h.2.2.2.symm⟩

theorem trans (h : Agree j k) (h' : Agree k l) : Agree j l :=
  ⟨h.1.trans h'.1, h.2.1.trans h'.2.1, h.2.2.1.trans h'.2.2.1, h.2.2.2.trans h'.2.2.2⟩

end Agree

/-- A copy is right after a transition. -/
def Record.leaves (r : Record) (l : Job) : Prop :=
  match r with
  | .lease _ epoch leaseSeq _ => l.epoch = epoch ∧ l.state = .leased ∧ l.leaseSeq = leaseSeq
  | .expire _ epoch leaseSeq => l.epoch = epoch ∧ l.state = .ready ∧ l.leaseSeq = leaseSeq
  | .done _ epoch leaseSeq => l.epoch = epoch ∧ l.state = .done ∧ l.leaseSeq = leaseSeq
  | .deadLetter _ epoch => l.epoch = epoch ∧ l.state = .deadLetter
  | _ => False

instance (r : Record) (l : Job) : Decidable (r.leaves l) :=
  match r with
  | .lease _ _ _ _ | .expire _ _ _ | .done _ _ _ => inferInstanceAs (Decidable (_ ∧ _ ∧ _))
  | .deadLetter _ _ => inferInstanceAs (Decidable (_ ∧ _))
  | .submit _ | .replicate _ | .takeover _ _ _ => instDecidableFalse

/-- A request is about the version of a copy. -/
def Request.carries (body : Request) (l : Job) : Prop :=
  match body with
  | .replicate j => Agree j l
  | .apply r => r.leaves l
  | _ => False

instance (body : Request) (l : Job) : Decidable (body.carries l) :=
  match body with
  | .replicate j => inferInstanceAs (Decidable (Agree j l))
  | .apply r => inferInstanceAs (Decidable (r.leaves l))
  | .fwdSubmit _ | .claim _ _ _ | .resync _ | .fwdAck _ _ _ _ | .fwdStatus _ | .drainHandoff _ =>
    instDecidableFalse

/-- A replica's copy is of the version a transition leads to, or is one it leads there
    from. -/
def Record.meets (r : Record) (k l : Job) : Prop :=
  Agree k l ∨ k.owner = l.owner ∧
    match r with
    | .lease _ _ _ _ => k.state ≠ .done ∧ k.state ≠ .deadLetter
    | .expire _ _ leaseSeq => k.state = .leased ∧ k.leaseSeq = leaseSeq
    | .done _ _ leaseSeq => k.state ≠ .done ∧ k.leaseSeq = leaseSeq
    | .deadLetter _ _ => k.state ≠ .done ∧ k.leaseSeq = l.leaseSeq
    | _ => False

instance (r : Record) (k l : Job) : Decidable (r.meets k l) :=
  match r with
  | .lease _ _ _ _ | .expire _ _ _ | .done _ _ _ | .deadLetter _ _ =>
    inferInstanceAs (Decidable (_ ∨ _ ∧ _ ∧ _))
  | .submit _ | .replicate _ | .takeover _ _ _ => inferInstanceAs (Decidable (_ ∨ _ ∧ False))

/-- A record that meets the right copy leads to the version. -/
theorem Record.agree_on {r : Record} {k l : Job} {epoch : Nat} (hleaves : r.leaves l)
    (hmeets : r.meets k l) (hfence : r.fence = some epoch) (hle : k.epoch ≤ epoch) :
    Agree (r.on k) l := by
  cases r with
  | submit | replicate | takeover => exact absurd hleaves (by simp [leaves])
  | lease id e s w =>
    rcases hleaves with ⟨rfl, hstate, rfl⟩
    cases hfence
    rcases hmeets with hagree | ⟨howner, hopen⟩
    · have hopen : k.state ≠ .done ∧ k.state ≠ .deadLetter := by simp [hagree.2.1, hstate]
      rw [on, if_pos ⟨hle, hopen⟩]
      exact ⟨rfl, hstate.symm, rfl, hagree.2.2.2⟩
    · rw [on, if_pos ⟨hle, hopen⟩]
      exact ⟨rfl, hstate.symm, rfl, howner⟩
  | done id e s =>
    rcases hleaves with ⟨rfl, hstate, rfl⟩
    cases hfence
    rcases hmeets with hagree | ⟨howner, hopen, hseq⟩
    · rw [on, if_neg (fun h => h.2 (hagree.2.1.trans hstate))]
      exact hagree
    · rw [on, if_pos ⟨hle, hopen⟩]
      exact ⟨rfl, hstate.symm, hseq, howner⟩
  | expire id e s =>
    rcases hleaves with ⟨rfl, hstate, rfl⟩
    cases hfence
    rcases hmeets with hagree | ⟨howner, hleased, hseq⟩
    · rw [on, if_neg (fun h => by simp [hagree.2.1, hstate] at h)]
      exact hagree
    · rw [on, if_pos ⟨hle, hleased, hseq⟩]
      exact ⟨rfl, hstate.symm, hseq, howner⟩
  | deadLetter id e =>
    rcases hleaves with ⟨rfl, hstate⟩
    cases hfence
    rcases hmeets with hagree | ⟨howner, hopen, hseq⟩
    · rw [on, if_pos ⟨hle, by simp [hagree.2.1, hstate]⟩]
      exact ⟨rfl, hstate.symm, hagree.2.2.1, hagree.2.2.2⟩
    · rw [on, if_pos ⟨hle, hopen⟩]
      exact ⟨rfl, hstate.symm, hseq, howner⟩

/-- The place of a version within its epoch: a lease, its expiry, the next lease, and so
    on; then parked; then done. -/
def Job.stage (l : Job) : ℕ ×ₗ ℕ :=
  match l.state with
  | .leased => toLex (0, 2 * l.leaseSeq)
  | .ready => toLex (0, 2 * l.leaseSeq + 1)
  | .deadLetter => toLex (1, 0)
  | .done => toLex (2, 0)

theorem Agree.stage {j l : Job} (h : Agree j l) : j.stage = l.stage := by
  rw [Job.stage, Job.stage, h.2.1, h.2.2.1]

theorem Request.carries_of_agree {body : Request} {j l : Job} (h : body.carries j)
    (hagree : Agree j l) : body.carries l := by
  cases body with
  | replicate b => exact Agree.trans h hagree
  | apply r =>
    rcases hagree with ⟨he, hs, hq, _⟩
    cases r with
    | lease | expire | done => exact ⟨he ▸ h.1, hs ▸ h.2.1, hq ▸ h.2.2⟩
    | deadLetter => exact ⟨he ▸ h.1, hs ▸ h.2⟩
    | submit | replicate | takeover => exact h.elim
  | fwdSubmit | claim | resync | fwdAck | fwdStatus | drainHandoff => exact h.elim

/-- A request carries one version. -/
theorem Request.carries_stage {body : Request} {j l : Job} (h : body.carries j)
    (h' : body.carries l) : j.epoch = l.epoch ∧ j.stage = l.stage := by
  cases body with
  | replicate b =>
    have hagree := (Agree.symm h).trans h'
    exact ⟨hagree.1, hagree.stage⟩
  | apply r =>
    cases r with
    | lease | expire | done =>
      rcases h with ⟨he, hs, hq⟩
      rcases h' with ⟨he', hs', hq'⟩
      exact ⟨he.trans he'.symm, by rw [Job.stage, Job.stage, hs, hs', hq, hq']⟩
    | deadLetter =>
      rcases h with ⟨he, hs⟩
      rcases h' with ⟨he', hs'⟩
      exact ⟨he.trans he'.symm, by simp only [Job.stage, hs, hs']⟩
    | submit | replicate | takeover => exact h.elim
  | fwdSubmit | claim | resync | fwdAck | fwdStatus | drainHandoff => exact h.elim

/-- What a record does to the copy of the node `a`: it keeps the version, gives the job to
    somebody else, or goes forward. -/
def Moved (a : Endpoint) (l l' : Job) : Prop :=
  Agree l' l ∨ l.epoch ≤ l'.epoch ∧
    (l'.owner ≠ a ∨ l.epoch < l'.epoch ∨ l.epoch = l'.epoch ∧ l.owner = a ∧ l.stage < l'.stage)

/-- Of two copies of the node `a`, the second is not behind; where it is of the same
    epoch and owned, so was the first. -/
def Onward (a : Endpoint) (l l' : Job) : Prop :=
  l.epoch ≤ l'.epoch ∧
    (l.epoch = l'.epoch → l'.owner = a → l.owner = a ∧ l.stage ≤ l'.stage)

theorem Onward.refl (a : Endpoint) (l : Job) : Onward a l l :=
  ⟨Nat.le_refl _, fun _ ho => ⟨ho, le_rfl⟩⟩

theorem Onward.trans {a : Endpoint} {j k l : Job} (h : Onward a j k) (h' : Onward a k l) :
    Onward a j l := by
  refine ⟨h.1.trans h'.1, fun he ho => ?_⟩
  have hjk := h.1
  have hkl := h'.1
  rcases h'.2 (by omega) ho with ⟨hk, hst'⟩
  rcases h.2 (by omega) hk with ⟨hj, hst⟩
  exact ⟨hj, hst.trans hst'⟩

theorem Moved.onward {a : Endpoint} {l l' : Job} (h : Moved a l l') : Onward a l l' := by
  rcases h with hagree | ⟨hle, hother | hlt | ⟨_, ho, hst⟩⟩
  · exact ⟨hagree.1.ge, fun _ ho => ⟨hagree.2.2.2.symm.trans ho, hagree.stage.ge⟩⟩
  · exact ⟨hle, fun _ ho => absurd ho hother⟩
  · exact ⟨hle, fun he => absurd he hlt.ne⟩
  · exact ⟨hle, fun _ _ => ⟨ho, hst.le⟩⟩

/-- A later kind of state is a later stage. -/
theorem stage_lt_of_fst {p q : ℕ × ℕ} (h : p.1 < q.1) : toLex p < toLex q :=
  Prod.Lex.toLex_lt_toLex.mpr (Or.inl h)

/-- Among the active states the numbers count. -/
theorem stage_lt_of_snd {n k : ℕ} (h : n < k) : toLex ((0 : ℕ), n) < toLex ((0 : ℕ), k) :=
  Prod.Lex.toLex_lt_toLex.mpr (Or.inr ⟨rfl, h⟩)

/-- A transition goes forward. -/
theorem Transition.stage_lt {id : JobId} {l : Job} {r : Record} (h : Transition id l r)
    (hnext : ∀ id epoch leaseSeq worker, r = .lease id epoch leaseSeq worker →
      leaseSeq = l.leaseSeq + 1) : l.stage < (r.on l).stage := by
  cases h with
  | lease worker ready within =>
    have hseq := hnext _ _ _ _ rfl
    rw [Record.on, if_pos ⟨Nat.le_refl _, by simp [ready]⟩]
    simp only [Job.stage, ready, hseq]
    exact stage_lt_of_snd (by omega)
  | expire leased =>
    rw [Record.on, if_pos ⟨Nat.le_refl _, leased, rfl⟩]
    simp only [Job.stage, leased]
    exact stage_lt_of_snd (by omega)
  | park active =>
    have hopen : l.state ≠ .done := by
      intro hd
      simp [Job.terminal, hd] at active
    rw [Record.on, if_pos ⟨Nat.le_refl _, hopen⟩]
    simp only [Job.stage]
    cases hs : l.state with
    | ready | leased => exact stage_lt_of_fst (by simp)
    | done | deadLetter => simp [Job.terminal, hs] at active
  | done open_ =>
    rw [Record.on, if_pos ⟨Nat.le_refl _, open_⟩]
    simp only [Job.stage]
    cases hs : l.state with
    | ready | leased | deadLetter => exact stage_lt_of_fst (by simp)
    | done => exact absurd hs open_

theorem Transition.epoch_on {id : JobId} {l : Job} {r : Record} (h : Transition id l r) :
    (r.on l).epoch = l.epoch := by
  rcases Record.on_epoch_cases l h.fence with he | he <;> exact he

theorem Transition.leaves {id : JobId} {l : Job} {r : Record} (h : Transition id l r) :
    r.leaves (r.on l) := by
  cases h with
  | lease worker ready within =>
    rw [Record.on, if_pos ⟨Nat.le_refl _, by simp [ready]⟩]
    exact ⟨rfl, rfl, rfl⟩
  | expire leased =>
    rw [Record.on, if_pos ⟨Nat.le_refl _, leased, rfl⟩]
    exact ⟨rfl, rfl, rfl⟩
  | park active =>
    have hopen : l.state ≠ .done := by
      intro hd
      simp [Job.terminal, hd] at active
    rw [Record.on, if_pos ⟨Nat.le_refl _, hopen⟩]
    exact ⟨rfl, rfl⟩
  | done open_ =>
    rw [Record.on, if_pos ⟨Nat.le_refl _, open_⟩]
    exact ⟨rfl, rfl, rfl⟩

/-! ### Calls that confirm a slot -/

/-- The slot of a job that the reply to a call confirms. -/
def Cont.confirms : Cont → Option (JobId × Nat)
  | .replicate id slot => some (id, slot)
  | .apply id slot _ _ _ => some (id, slot)
  | _ => none

/-- A pending call that confirms a slot was sent to the member in that slot, and is about
    a version the node has had. -/
def Calls (n : Node) : Prop :=
  ∀ reqId call id slot, n.calls.lookup reqId = some call → call.cont.confirms = some (id, slot) →
    ∃ dst body j l, .request n.self dst n.boot reqId body ∈ n.outbox ∧
      Held n.store.wal id j ∧ (slot, dst) ∈ j.peers n.self ∧ Held n.store.wal id l ∧ body.carries l

theorem Node.held_wal {n : Node} {id : JobId} {j : Job} (h : n.find id = some j) :
    Held n.store.wal id j := by
  rw [Node.find, n.store.replayed] at h
  exact held_last h

theorem Asks.confirms {t : Trigger} {m : Node} {dst : Endpoint} {body : Request} {k : Cont}
    {id : JobId} {slot : Nat} (h : Asks t m dst body k) (hk : k.confirms = some (id, slot)) :
    ∃ j l, Held m.store.wal id j ∧ (slot, dst) ∈ j.peers m.self ∧ Held m.store.wal id l ∧
      body.carries l := by
  cases h with
  | replicate _ _ _ j found peer =>
    cases hk
    exact ⟨j, j, Node.held_wal found, peer, Node.held_wal found, .refl j⟩
  | apply _ _ _ j r q s found peer committed =>
    cases hk
    rcases committed with ⟨v, l, hv, hl, _, htrans⟩
    refine ⟨j, r.on l, Node.held_wal found, peer, Held.mono hv (held_last ?_), htrans.leaves⟩
    rw [replay_snoc, Table.find_apply, if_pos htrans.jobId, hl]
    rfl
  | fwdSubmit | fwdAck | claim | resync | drainHandoff | fwdStatus => cases hk

section Invariant

variable {K : Cond} {d : Deployment}

theorem calls_to : Always K d (fun w => ∀ e, Calls (w e)) := by
  refine always_of_node (fun _ h => h) (fun e reqId call id slot h => by cases h)
    (fun {c e t m m'} hin _ hm _ hmove => ?_)
  have hgrow := hmove.grows
  -- What was known of an older call is still known.
  have hkeep : m'.boot = m.boot → ∀ reqId call id slot, m.calls.lookup reqId = some call →
      call.cont.confirms = some (id, slot) → ∃ dst body j l,
        .request m'.self dst m'.boot reqId body ∈ m'.outbox ∧ Held m'.store.wal id j ∧
          (slot, dst) ∈ j.peers m'.self ∧ Held m'.store.wal id l ∧ body.carries l := by
    intro hboot reqId call id slot hcall hk
    rcases hm reqId call id slot hcall hk with ⟨dst, body, j, l, hp, hj, hpeer, hl, hcar⟩
    rw [hmove.self_eq.1, hboot]
    exact ⟨dst, body, j, l, hgrow.outbox.subset hp, hj.mono hgrow.wal, hpeer,
      hl.mono hgrow.wal, hcar⟩
  intro reqId call id slot hcall hk
  rcases hmove.call_cases hcall with ⟨hboot, hold | ⟨dst, body, rfl, asks, hafter⟩⟩
  · exact hkeep hboot reqId call id slot hold hk
  · rcases asks.confirms hk with ⟨j, l, hj, hpeer, hl, hcar⟩
    rw [hafter]
    exact ⟨dst, body, j, l, List.mem_append_right _ (List.mem_singleton.mpr rfl), hj,
      hpeer, hl, hcar⟩

end Invariant

end Tautq
