import Tautq.Safety.Runs

/-!
# Epoch Fencing

A node's copy of a job never goes back to an earlier epoch, whatever records,
full copies, compactions and restarts come in between. A replica takes a
transition only from the owner its copy names and never from an earlier epoch,
and a full copy never from an earlier epoch: such a request is answered without
a confirmation and leaves the store alone. So once all other pinned members of
an owner are beyond an epoch, nothing that owner sends under it is confirmed any
more.

Compactions replace the file, and the epochs are those of what it replays to.
That is the store's own invariant, so nothing in this module mentions them.

## Main definitions

* `Stale`: A transition record that a copy is fenced against.
* `Refused`: A request was answered without a confirmation, and nothing was
  stored.

## Theorems

* `Reach.epoch_le`: The epoch of a copy never goes down along a run.
* `handleApply_refused`, `handleReplicate_refused`: What the fence does.
* `Reach.later`: A confirmation is of a record not below the epoch the
  copy had at any earlier time.
* `epoch_fencing`: The three together.
-/

namespace Tautq

open Status Cluster

/-- A transition record of an earlier epoch than the copy's, or from somebody who is not
    its owner; a takeover record may come from anybody. -/
def Stale (src : Endpoint) (r : Record) (l : Job) : Prop :=
  (∃ epoch, r.fence = some epoch ∧ epoch < l.epoch) ∨ (src ≠ l.owner ∧ r.isTakeover = false)

/-- A request was answered without a confirmation, and nothing was stored. -/
def Refused (src : Endpoint) (boot reqId : Nat) (asked : Request) (n n' : Node) : Prop :=
  n'.store = n.store ∧ ∃ st, st ≠ kCreated ∧ st ≠ kDuplicate ∧
    n'.outbox = n.outbox ++ [.response n.self src boot reqId asked st .empty]

/-- The fence of the transitions. -/
theorem handleApply_refused {n : Node} (ctx : ReqCtx) {r : Record} {l : Job}
    (hl : n.find r.jobId = some l) (h : Stale ctx.src r l) :
    Refused ctx.src ctx.boot ctx.reqId ctx.asked n (n.handleApply ctx r) := by
  unfold Node.handleApply
  cases hf : r.fence with
  | none => exact ⟨rfl, kInvalid, by decide, by decide, rfl⟩
  | some epoch =>
    simp only [hl]
    by_cases hlt : epoch < l.epoch
    · rw [if_pos hlt]
      exact ⟨rfl, kStaleEpoch, by decide, by decide, rfl⟩
    · rw [if_neg hlt]
      -- The epoch is current, so it is the sender that is not entitled.
      have howner : ctx.src ≠ l.owner ∧ r.isTakeover = false := by
        rcases h with ⟨epoch', hf', hlt'⟩ | h
        · rw [hf, Option.some.injEq] at hf'
          exact absurd (hf' ▸ hlt') hlt
        · exact h
      rw [if_pos howner]
      exact ⟨rfl, kNotOwner, by decide, by decide, rfl⟩

/-- The fence of the full copies. -/
theorem handleReplicate_refused {n : Node} (ctx : ReqCtx) {j l : Job}
    (hl : n.find j.id = some l) (h : j.epoch < l.epoch) :
    Refused ctx.src ctx.boot ctx.reqId ctx.asked n (n.handleReplicate ctx j) := by
  unfold Node.handleReplicate
  simp only [hl, if_pos h]
  exact ⟨rfl, kStaleEpoch, by decide, by decide, rfl⟩

section Runs

variable {K : Cond} {d : Deployment} {c c' : Cluster} {acts : List Act}

/-- The epoch of a copy never goes down along a run. -/
theorem Reach.epoch_le (h : Reach K d c) (hexec : c.exec acts = some c') (hmeets : c.Meets K acts)
    {x : Endpoint} {id : JobId} {j : Job} (hj : (c.node x).find id = some j) :
    ∃ j', (c'.node x).find id = some j' ∧ j.epoch ≤ j'.epoch :=
  epoch_le_of_grows (h.grows hexec hmeets x) ((sane.reach (h.run hexec hmeets)).copies x).proper hj

/-- A transition that is confirmed is of a copy the replica has, under no earlier epoch. -/
theorem Inside.unfenced {e : Endpoint} {t : Trigger} {m m' : Node} {src dst : Endpoint}
    {boot reqId : Nat} {r : Record} {body : Reply} (hin : Inside K d c e t m)
    (h : Sends t (c.node e) m m' (.response src dst boot reqId (.apply r) kCreated body)) :
    ∃ epoch l, r.fence = some epoch ∧ m.find r.jobId = some l ∧ l.epoch ≤ epoch := by
  have hwire := wire.inside hin e
  rw [Function.update_self] at hwire
  rcases h.confirms hwire (Or.inr ⟨r, rfl⟩) with ⟨ctx, r', _, hasked, hserves, _⟩
  cases hserves with
  | copy j trigger asked => rw [hasked] at asked; cases asked
  | apply _ epoch l trigger asked fence found unfenced =>
    rw [hasked, Request.apply.injEq] at asked
    subst asked
    exact ⟨epoch, l, fence, found, unfenced⟩
  | claim id proposed l trigger asked => rw [hasked] at asked; cases asked

/-- What is confirmed after a state: transitions of copies the replica has, and not below
    the epoch its copy had in that state. -/
structure Later (w₀ w : World) : Prop where
  grows : World.Grows w₀ w
  confirmed : ∀ x new, (w x).outbox = (w₀ x).outbox ++ new → ∀ dst boot reqId r body,
    .response x dst boot reqId (.apply r) kCreated body ∈ new → ∃ epoch, r.fence = some epoch ∧
      (∃ l, Held (w x).store.log r.jobId l) ∧
      ∀ l, (w₀ x).find r.jobId = some l → l.epoch ≤ epoch

theorem Later.refl (w : World) : Later w w where
  grows e := .refl _
  confirmed x new hnew dst boot reqId r body hp := by
    rw [List.self_eq_append_right.mp hnew] at hp
    cases hp

theorem Later.move {w₀ : World} {e : Endpoint} {t : Trigger} {m m' : Node}
    (h : Later w₀ (Function.update c.node e m)) (hin : Inside K d c e t m)
    (hmove : Move t (c.node e) m m') : Later w₀ (Function.update c.node e m') := by
  have hgrow := World.grows_update c.node e hmove.grows
  refine ⟨fun x => (h.grows x).trans (hgrow x), fun x new hnew dst boot reqId r body hp => ?_⟩
  have hkeep : ∀ new₀, (Function.update c.node e m x).outbox = (w₀ x).outbox ++ new₀ →
      .response x dst boot reqId (.apply r) kCreated body ∈ new₀ → ∃ epoch, r.fence = some epoch ∧
        (∃ l, Held (Function.update c.node e m' x).store.log r.jobId l) ∧
        ∀ l, (w₀ x).find r.jobId = some l → l.epoch ≤ epoch := by
    intro new₀ hnew₀ hp₀
    rcases h.confirmed x new₀ hnew₀ dst boot reqId r body hp₀ with ⟨epoch, hf, ⟨l, hl⟩, hle⟩
    exact ⟨epoch, hf, ⟨l, hl.mono (hgrow x).log⟩, hle⟩
  by_cases hx : x = e
  · subst hx
    rw [Function.update_self] at hnew
    rcases hmove.adds.outbox with hsame | ⟨p, hsends, hadded⟩
    · exact hkeep new (by rw [Function.update_self, ← hsame]; exact hnew) hp
    rcases (h.grows x).outbox with ⟨new₀, hnew₀⟩
    rw [Function.update_self] at hnew₀
    rw [hadded, ← hnew₀, List.append_assoc] at hnew
    rw [← List.append_cancel_left hnew, List.mem_append, List.mem_singleton] at hp
    rcases hp with hp | rfl
    · exact hkeep new₀ (by rw [Function.update_self, hnew₀]) hp
    · -- The packet is an answer of this very move.
      rcases hin.unfenced hsends with ⟨epoch, l, hf, hl, hle⟩
      have hproper := ((sane.inside hin).copies x).proper
      have hg := h.grows x
      rw [Function.update_self] at hproper hg
      refine ⟨epoch, hf, ⟨l, ?_⟩, fun l₀ hl₀ => ?_⟩
      · rw [Function.update_self]
        exact (Node.held_of_find hl).mono hmove.grows.log
      · rcases epoch_le_of_grows hg hproper hl₀ with ⟨l₁, hl₁, hle₁⟩
        rw [Option.some.inj (hl₁.symm.trans hl)] at hle₁
        exact hle₁.trans hle
  · rw [Function.update_of_ne hx] at hnew
    exact hkeep new (by rw [Function.update_of_ne hx]; exact hnew) hp

theorem Reach.later (h : Reach K d c) (hexec : c.exec acts = some c') (hmeets : c.Meets K acts) :
    Later c.node c'.node :=
  h.along (R := Later) .refl (fun hin hw hmove => hw.move hin hmove) hexec hmeets

end Runs

/-- Along every run the epoch of a copy never goes down; a stale transition and a full copy
    of an earlier epoch are refused and change nothing; and once all other pinned members
    of a node are beyond an epoch, none of its transitions under it is confirmed any
    more. -/
theorem epoch_fencing (d : Deployment) (acts acts' : List Act) (c c' : Cluster)
    (hrun : d.init.exec acts = some c) (hrun' : c.exec acts' = some c') :
    (∀ x id j, (c.node x).find id = some j →
      ∃ j', (c'.node x).find id = some j' ∧ j.epoch ≤ j'.epoch) ∧
    (∀ a c₁ x src boot reqId asked, c.step a = some c₁ →
      c.target a = some (x, .packet (.request src x boot reqId asked)) →
      (∀ r l, asked = .apply r → (c.node x).find r.jobId = some l → Stale src r l →
        Refused src boot reqId asked (c.node x) (c₁.node x)) ∧
      (∀ j l, asked = .replicate j → (c.node x).find j.id = some l → j.epoch < l.epoch →
        Refused src boot reqId asked (c.node x) (c₁.node x))) ∧
    (∀ o id l e, (c.node o).find id = some l →
      (∀ x ∈ l.replicas.pinned, x ≠ o → ∃ j, (c.node x).find id = some j ∧ e < j.epoch) →
      ∀ x new, (c'.node x).outbox = (c.node x).outbox ++ new →
        ∀ boot reqId r body epoch, .response x o boot reqId (.apply r) kCreated body ∈ new →
          r.jobId = id → r.fence = some epoch → e < epoch) := by
  have hreach : Reach (fun _ _ _ => True) d c := .of_run hrun (meets_true _ _)
  have hmeets' := meets_true c acts'
  refine ⟨fun x id j hj => hreach.epoch_le hrun' hmeets' hj, ?_, ?_⟩
  · intro a c₁ x src boot reqId asked hstep htarget
    have hreact := step_react hstep htarget
    constructor
    · rintro r l rfl hl hstale
      rw [hreact]
      exact handleApply_refused (n := { c.node x with sched := choices a })
        { src, boot, reqId, asked := .apply r } hl hstale
    · rintro j l rfl hl hlt
      rw [hreact]
      exact handleReplicate_refused (n := { c.node x with sched := choices a })
        { src, boot, reqId, asked := .replicate j } hl hlt
  · intro o id l e hl hothers x new hnew boot reqId r body epoch hp hid hf
    rcases (hreach.later hrun' hmeets').confirmed x new hnew o boot reqId r body hp with
      ⟨epoch', hf', ⟨lx, hlx⟩, hle⟩
    rw [hf, Option.some.injEq] at hf'
    subst hf' hid
    have hreach' := hreach.run hrun' hmeets'
    -- Whoever confirms has a copy, so it is pinned; and nobody asks itself.
    have hpinned : x ∈ l.replicas.pinned := by
      refine held_pinned.reach hreach' x o r.jobId lx l hlx ?_
      exact (Node.held_of_find hl).mono ((hreach.later hrun' hmeets').grows o).log
    have hother : x ≠ o := by
      have hmem : .response x o boot reqId (.apply r) kCreated body ∈ (c'.node x).outbox := by
        rw [hnew]
        exact List.mem_append_right _ hp
      have hself := (names.reach hreach' x).1
      have hsent := (wire.reach hreach' x).replies o boot reqId _ _ _ (by rw [hself]; exact hmem)
      rw [Sent, hself] at hsent
      have hselfo := (names.reach hreach' o).1
      rcases (wire.reach hreach' o).asks x boot reqId _ (by rw [hselfo]; exact hsent) with ⟨k, hk⟩
      rw [hselfo] at hk
      cases hk with
      | apply _ slot q other => exact other
    rcases hothers x hpinned hother with ⟨j, hj, hlt⟩
    exact lt_of_lt_of_le hlt (hle j hj)

namespace Trio

/-- `b` takes the job over from `a` and `c` grants it; `b` compacts its log and starts
    again. -/
def claimed : List Act :=
  unleased ++
    [.does b (.view [c]), .does b (.peerDead a), .takes b 1, .does b .compact, .does b (.restart 2)]

/-- `a` leases the job, and both hear of it. -/
def leasedLate : List Act :=
  [.does a (.lease 7), .takes a 2, .takes a 3]

end Trio

/-- Both others are beyond the epoch of the lease, and neither confirms it. -/
theorem epoch_fencing_claimed : ∃ c c', Trio.cluster.init.exec Trio.claimed = some c ∧
    c.exec Trio.leasedLate = some c' ∧
    .request Trio.a Trio.c 1 4 (.apply (.lease Trio.job 1 1 7)) ∈ (c'.node Trio.a).outbox ∧
    ∀ x new, (c'.node x).outbox = (c.node x).outbox ++ new →
      .response x Trio.a 1 4 (.apply (.lease Trio.job 1 1 7)) kCreated .empty ∉ new := by
  have hshow : ∃ c c', Trio.cluster.init.exec Trio.claimed = some c ∧
      c.exec Trio.leasedLate = some c' ∧
      (.request Trio.a Trio.c 1 4 (.apply (.lease Trio.job 1 1 7)) ∈ (c'.node Trio.a).outbox ∧
        ∃ l ∈ (c.node Trio.a).find Trio.job, ∀ x ∈ l.replicas.pinned, x ≠ Trio.a →
          ∃ j ∈ (c.node x).find Trio.job, 1 < j.epoch) := run_turns (by decide +kernel)
  rcases hshow with ⟨c, c', hc, hc', hsent, l, hl, hothers⟩
  refine ⟨c, c', hc, hc', hsent, fun x new hnew hp => ?_⟩
  have hlt :=
    (epoch_fencing _ _ _ c c' hc hc').2.2 Trio.a Trio.job l 1 hl hothers x new hnew _ _ _ _
    1 hp rfl rfl
  exact absurd hlt (by decide)

end Tautq
