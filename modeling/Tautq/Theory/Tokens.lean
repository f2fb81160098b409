import Tautq.Lib.Assoc
import Tautq.Theory.Seq

/-!
# Tokens

A lease is known to its worker by a token, the epoch and the lease sequence
number. A token is pending from the local commit of the lease record to the
decision of the commit, and granted from then on; a failed commit and a restart
drop it. This module says what a move does to both lists.

## Main definitions

* `Node.leasing`, `Node.granted`: The pending and the granted tokens of a node.
* `TokenStep`: What a move does to them.

## Theorems

* `Move.token_step`: Every change is one of four.
-/

namespace Tautq

open Status

/-- The job, epoch and sequence number of the lease record behind a grant. -/
def Event.token : Event → Option (JobId × Nat × Nat)
  | .granted (.lease id epoch leaseSeq _) _ _ => some (id, epoch, leaseSeq)
  | _ => none

/-- The token an undecided commit will hand out. -/
def QState.token (s : QState) : Option (JobId × Nat × Nat) :=
  match s.fired, s.done with
  | false, .lease id epoch leaseSeq _ => some (id, epoch, leaseSeq)
  | _, _ => none

/-- The tokens handed out, the newest first. -/
def Node.granted (n : Node) : List (JobId × Nat × Nat) :=
  n.events.filterMap Event.token

/-- The tokens of leases whose commit is not decided. -/
def Node.leasing (n : Node) : List (JobId × Nat × Nat) :=
  n.qstates.filterMap QState.token

/-- What a move does to the tokens: pending ones are dropped, one becomes pending,
    one that was pending is granted, or one is granted at once. -/
inductive TokenStep (t : Trigger) (m₀ m m' : Node) : Prop where
  | fewer (granted : m'.granted = m.granted) (leasing : m'.leasing.Sublist m.leasing)
  | begin_ (id : JobId) (l : Job) (worker : Nat) (found : m.find id = some l)
      (owned : l.owner = m.self) (trigger : t = .input (.lease worker)) (ready : l.state = .ready)
      (first : m.store = m₀.store) (open_ : m.store.failed = false)
      (stored : m'.store = m.store.append (.lease id l.epoch ((l.leaseSeq + 1) % 2 ^ 32) worker))
      (granted : m'.granted = m.granted)
      (leasing : m'.leasing = m.leasing ++ [(id, l.epoch, (l.leaseSeq + 1) % 2 ^ 32)])
  | grant (id : JobId) (epoch leaseSeq : Nat) (stored : m'.store = m.store)
      (granted : m'.granted = (id, epoch, leaseSeq) :: m.granted)
      (leasing : m.leasing.Perm ((id, epoch, leaseSeq) :: m'.leasing))
  | alone (id : JobId) (l : Job) (worker : Nat) (found : m.find id = some l)
      (owned : l.owner = m.self) (trigger : t = .input (.lease worker)) (ready : l.state = .ready)
      (first : m.store = m₀.store) (open_ : m.store.failed = false)
      (stored : m'.store = m.store.append (.lease id l.epoch ((l.leaseSeq + 1) % 2 ^ 32) worker))
      (granted : m'.granted = (id, l.epoch, (l.leaseSeq + 1) % 2 ^ 32) :: m.granted)
      (leasing : m'.leasing = m.leasing)

section Steps

variable {t : Trigger} {m₀ m m' : Node}

theorem Event.token_of_idle {e : Event} (h : e.idle) : e.token = none := by
  cases e with
  | granted => cases h
  | _ => rfl

/-- Recounting a commit drops its token or keeps it. -/
theorem token_recount {s s' : QState} (hdone : s'.done = s.done)
    (hfired : s.fired = true → s'.fired = true) : s'.token = s.token ∨ s'.token = none := by
  unfold QState.token
  rw [hdone]
  cases hs' : s'.fired with
  | true => exact Or.inr rfl
  | false =>
    have hs : s.fired = false := by
      by_contra hne
      rw [hfired (by simpa using hne)] at hs'
      cases hs'
    exact Or.inl (by rw [hs])

theorem leasing_recount {q : Nat} {s : QState} (s' : QState) (hs : m.qstates[q]? = some s)
    (hdone : s'.done = s.done) (hfired : s.fired = true → s'.fired = true)
    (hq : m'.qstates = m.qstates.set q s') : m'.leasing.Sublist m.leasing := by
  rw [Node.leasing, hq]
  exact filterMap_set_sublist _ hs (token_recount hdone hfired)

@[simp] theorem granted_submitCb (cb : SubmitCb) (st : Status) (id : JobId) :
    (m.submitCb cb st id).granted = m.granted := by
  cases cb <;> rfl

@[simp] theorem leasing_submitCb (cb : SubmitCb) (st : Status) (id : JobId) :
    (m.submitCb cb st id).leasing = m.leasing := by
  cases cb <;> rfl

@[simp] theorem granted_ackCb (cb : AckCb) (id : JobId) (success : Bool) (st : Status) :
    (m.ackCb cb id success st).granted = m.granted := by
  cases cb <;> rfl

@[simp] theorem leasing_ackCb (cb : AckCb) (id : JobId) (success : Bool) (st : Status) :
    (m.ackCb cb id success st).leasing = m.leasing := by
  cases cb <;> rfl

theorem Move.token_step (h : Move t m₀ m m') : TokenStep t m₀ m m' := by
  cases h with
  | quiet _ h =>
    refine .fewer ?_ ?_
    · rw [Node.granted, h.events, Node.granted]
    · rw [Node.leasing, h.qstates, Node.leasing]
  | note e idle => exact .fewer (List.filterMap_cons_none (Event.token_of_idle idle)) (.refl _)
  | mintAlone | submitted => exact .fewer (granted_submitCb _ _ _) (by rw [leasing_submitCb]; rfl)
  | duplicate | refuse => exact .fewer (granted_submitCb _ _ _) (by rw [leasing_submitCb])
  | ackAlone => exact .fewer (granted_ackCb _ _ _ _) (by rw [leasing_ackCb]; rfl)
  | ackDone | ackPlain => exact .fewer (granted_ackCb _ _ _ _) (by rw [leasing_ackCb])
  | begin_ id l r d found owned begins open_ peers =>
    cases begins with
    | lease worker trigger ready within first =>
      exact .begin_ id l worker found owned trigger ready first open_ rfl rfl
        (List.filterMap_append)
    | exhausted | parked | expired | nacked | done =>
      refine .fewer rfl ?_
      change ((m.qstates ++ [_]).filterMap QState.token).Sublist m.leasing
      rw [List.filterMap_append]
      exact (List.append_nil _).symm ▸ List.Sublist.refl _
  | grantAlone id l r epoch leaseSeq worker found owned begins open_ peers =>
    cases begins with
    | lease _ trigger ready within first =>
      exact .alone id l worker found owned trigger ready first open_ rfl rfl rfl
  | miss q s fired state h =>
    exact .fewer rfl (leasing_recount { s with outstanding := s.outstanding - 1, fired }
      state rfl h rfl)
  | confirm id slot member r q s body answers state =>
    exact .fewer rfl (leasing_recount
      { s with outstanding := s.outstanding - 1, needed := s.needed - 1, fired := true } state rfl
      (fun _ => rfl) rfl)
  | grant id id' slot member r q s body epoch leaseSeq worker j answers state pending
      isLease found =>
    refine .grant id' epoch leaseSeq rfl rfl (filterMap_set_perm _ state ?_ ?_)
    · rw [QState.token, pending, isLease]
    · rfl
  | completed id id' slot member r q s body cb answers state =>
    refine .fewer (granted_ackCb _ _ _ _) ?_
    rw [leasing_ackCb]
    exact leasing_recount
      { s with outstanding := s.outstanding - 1, needed := s.needed - 1, fired := true } state rfl
      (fun _ => rfl) rfl
  | unlease id l q s epoch leaseSeq worker store found state =>
    exact .fewer rfl (leasing_recount
      { s with outstanding := s.outstanding - 1, fired := true } state rfl (fun _ => rfl) rfl)
  | reboot => exact .fewer rfl (List.nil_sublist _)
  | _ => exact .fewer rfl (.refl _)

end Steps

end Tautq
