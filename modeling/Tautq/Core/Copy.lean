import Tautq.Core.Table
import Tautq.Lib.History

/-!
# What a Record Does to a Copy

`Table.apply` is a case distinction over a whole table. Every argument about
the log is about one job, so this module says once what a record does to the
stored copy of its job: a full copy creates a missing one, and otherwise the
record acts on the copy by `Record.on`. Records of other jobs leave it alone.

The rest of the module is what a single record can and cannot do to a copy:
only a full copy lowers a lease sequence number across epochs or brings a done
job back, only a takeover record or a full copy changes the owner, and the
epoch never goes down.

## Main definitions

* `SameJob`: Two copies agree on what was fixed at submit.
* `Record.full`: The full copy a record carries.
* `Record.on`: A record's effect on a stored copy of its job.
* `Held`: A copy some prefix of a log replays to.

## Theorems

* `Table.find_apply`: The copy a record leaves behind.
* `Table.byIdem_apply`: The index entry a record leaves behind.
* `Record.epoch_le_on`: The epoch never goes down.
* `Record.on_done`: A done copy stays done under a transition record.
* `held_snoc`: The copies a longer log has held.
-/

namespace Tautq

/-- Two copies agree on what is fixed when a job is submitted. -/
structure SameJob (a b : Job) : Prop where
  id : a.id = b.id
  idemKey : a.idemKey = b.idemKey
  url : a.url = b.url
  visibilityMs : a.visibilityMs = b.visibilityMs
  maxAttempts : a.maxAttempts = b.maxAttempts
  replicas : a.replicas = b.replicas

namespace SameJob

theorem refl (a : Job) : SameJob a a := ⟨rfl, rfl, rfl, rfl, rfl, rfl⟩

theorem trans {a b c : Job} (h : SameJob a b) (h' : SameJob b c) : SameJob a c :=
  ⟨h.id.trans h'.id, h.idemKey.trans h'.idemKey, h.url.trans h'.url,
    h.visibilityMs.trans h'.visibilityMs, h.maxAttempts.trans h'.maxAttempts,
    h.replicas.trans h'.replicas⟩

theorem symm {a b : Job} (h : SameJob a b) : SameJob b a :=
  ⟨h.id.symm, h.idemKey.symm, h.url.symm, h.visibilityMs.symm, h.maxAttempts.symm,
    h.replicas.symm⟩

theorem peers {a b : Job} (h : SameJob a b) (self : Endpoint) : a.peers self = b.peers self := by
  rw [Job.peers, Job.peers, h.replicas]

end SameJob

namespace Record

/-- The full copy a record carries. -/
def full : Record → Option Job
  | .submit j => some j
  | .replicate j => some j
  | _ => none

/-- A record's effect on a stored copy of its job. -/
def on (r : Record) (l : Job) : Job :=
  match r with
  | .submit j => j
  | .replicate j => if jobAdvances l j then j else l
  | .lease _ epoch leaseSeq _ =>
    if l.epoch ≤ epoch ∧ l.state ≠ .done ∧ l.state ≠ .deadLetter then
      { l with state := .leased, epoch, leaseSeq, attempts := leaseSeq }
    else l
  | .done _ epoch _ =>
    if l.epoch ≤ epoch ∧ l.state ≠ .done then { l with state := .done, epoch, body := [] } else l
  | .expire _ epoch leaseSeq =>
    if l.epoch ≤ epoch ∧ l.state = .leased ∧ l.leaseSeq = leaseSeq then
      { l with state := .ready, epoch }
    else l
  | .deadLetter _ epoch =>
    if l.epoch ≤ epoch ∧ l.state ≠ .done then { l with state := .deadLetter, epoch } else l
  | .takeover _ newEpoch newOwner =>
    if l.epoch < newEpoch then { l with epoch := newEpoch, owner := newOwner } else l

/-- What a record leaves of its job's copy, if there was one. -/
def effect (r : Record) : Option Job → Option Job
  | none => r.full
  | some l => some (r.on l)

end Record

namespace Table

theorem find_insert (t : Table) (id id' : JobId) (j : Job)
    (byIdem : AList (fun _ : Bytes => JobId)) : find { jobs := t.jobs.insert id j, byIdem } id' =
      if id = id' then some j else t.find id' := by
  by_cases h : id = id'
  · rw [if_pos h, find, h, AList.lookup_insert]
  · rw [if_neg h, find, AList.lookup_insert_ne (Ne.symm h), find]

theorem find_amend (t : Table) (id id' : JobId) (guard : Job → Bool) (f : Job → Job) :
    (t.amend id guard f).find id' =
      if id = id' then (t.find id).map (fun j => if guard j then f j else j) else t.find id' := by
  unfold amend
  cases hfind : t.find id with
  | none =>
    by_cases h : id = id'
    · rw [if_pos h, ← h, hfind, Option.map_none]
    · rw [if_neg h]
  | some j =>
    by_cases hg : guard j
    · simp only [hg, if_true, find_insert, Option.map_some]
    · simp only [hg, Bool.false_eq_true, if_false, Option.map_some]
      by_cases h : id = id'
      · rw [if_pos h, ← h, hfind]
      · rw [if_neg h]

theorem find_apply_of_ne (t : Table) (r : Record) (id : JobId) (h : r.jobId ≠ id) :
    (t.apply r).find id = t.find id := by
  cases r with
  | submit j => exact (find_insert t j.id id j _).trans (if_neg h)
  | replicate j =>
    have hne : j.id ≠ id := h
    cases hfind : t.find j.id with
    | none =>
      simp only [apply, hfind]
      exact (find_insert t j.id id j _).trans (if_neg hne)
    | some l =>
      by_cases hadv : jobAdvances l j
      · simp only [apply, hfind, hadv, if_true]
        exact (find_insert t j.id id j _).trans (if_neg hne)
      · simp only [apply, hfind, hadv, Bool.false_eq_true, if_false]
        rfl
  | lease | done | expire | deadLetter | takeover => exact (find_amend t _ _ _ _).trans (if_neg h)

theorem find_apply_self (t : Table) (r : Record) :
    (t.apply r).find r.jobId = r.effect (t.find r.jobId) := by
  cases r with
  | submit j =>
    refine (find_insert t j.id j.id j _).trans ?_
    rw [if_pos rfl]
    cases t.find (Record.submit j).jobId <;> rfl
  | replicate j =>
    change (t.apply (.replicate j)).find j.id = (Record.replicate j).effect (t.find j.id)
    cases hfind : t.find j.id with
    | none =>
      simp only [apply, hfind]
      exact (find_insert t j.id j.id j _).trans (if_pos rfl)
    | some l =>
      simp only [Record.effect, Record.on]
      by_cases hadv : jobAdvances l j
      · simp only [apply, hfind, hadv, if_true]
        exact (find_insert t j.id j.id j _).trans (if_pos rfl)
      · simp only [apply, hfind, hadv, Bool.false_eq_true, if_false]
        exact hfind
  -- The other records amend a stored copy and never create one.
  | lease id | done id | expire id | deadLetter id | takeover id =>
    refine (find_amend t id id _ _).trans ?_
    rw [if_pos rfl, Record.jobId]
    cases t.find id <;> simp [Record.effect, Record.full, Record.on]

/-- A record changes the copy of its own job and no other. -/
theorem find_apply (t : Table) (r : Record) (id : JobId) :
    (t.apply r).find id = if r.jobId = id then r.effect (t.find id) else t.find id := by
  by_cases h : r.jobId = id
  · rw [if_pos h, ← h, find_apply_self]
  · rw [if_neg h, find_apply_of_ne t r id h]

/-- Tables with the same copies have the same copies after a record. -/
theorem find_apply_congr {t t' : Table} (r : Record) (h : ∀ id, t.find id = t'.find id)
    (id : JobId) : (t.apply r).find id = (t'.apply r).find id := by
  rw [find_apply, find_apply, h]

theorem byIdem_amend (t : Table) (id : JobId) (guard : Job → Bool) (f : Job → Job) :
    (t.amend id guard f).byIdem = t.byIdem := by
  unfold amend
  split
  · rfl
  · split <;> rfl

/-- Only a full copy touches the index, at its own key. -/
theorem byIdem_apply (t : Table) (r : Record) (key : Bytes) :
    (t.apply r).byIdem.lookup key =
      match r.full with
      | none => t.byIdem.lookup key
      | some j => if j.idemKey = key then some j.id else t.byIdem.lookup key := by
  cases r with
  | submit j =>
    simp only [apply, Record.full]
    by_cases h : j.idemKey = key
    · rw [if_pos h, h, AList.lookup_insert]
    · rw [if_neg h, AList.lookup_insert_ne (Ne.symm h)]
  | replicate j =>
    simp only [apply, Record.full]
    by_cases h : j.idemKey = key
    · rw [if_pos h, h, AList.lookup_insert]
    · rw [if_neg h, AList.lookup_insert_ne (Ne.symm h)]
  | lease | done | expire | deadLetter | takeover => simp only [apply, byIdem_amend, Record.full]

theorem byIdem_apply_congr {t t' : Table} (r : Record)
    (h : ∀ key, t.byIdem.lookup key = t'.byIdem.lookup key) (key : Bytes) :
    (t.apply r).byIdem.lookup key = (t'.apply r).byIdem.lookup key := by
  rw [byIdem_apply, byIdem_apply, h]

end Table

/-- A record leaves a stored copy of its job a stored copy. -/
theorem find_apply_of_some {t : Table} {id : JobId} {l : Job} (r : Record)
    (h : t.find id = some l) :
    (t.apply r).find id = some (if r.jobId = id then r.on l else l) := by
  rw [Table.find_apply, h]
  by_cases hid : r.jobId = id
  · rw [if_pos hid, if_pos hid, Record.effect]
  · rw [if_neg hid, if_neg hid]

namespace Record

theorem full_jobId {r : Record} {j : Job} (h : r.full = some j) : j.id = r.jobId := by
  cases r with
  | submit | replicate =>
    simp only [full, Option.some.injEq] at h
    rw [← h, jobId]
  | lease | done | expire | deadLetter | takeover => simp [full] at h

end Record

/-- Adoption never lowers the epoch. -/
theorem jobAdvances_epoch {l r : Job} (h : jobAdvances l r = true) : l.epoch ≤ r.epoch := by
  unfold jobAdvances at h
  split at h
  · exact (of_decide_eq_true h).le
  · omega

/-- Within an epoch, adoption never leaves the done state. -/
theorem jobAdvances_done {l r : Job} (h : jobAdvances l r = true) (he : r.epoch = l.epoch)
    (hl : l.state = .done) : r.state = .done := by
  unfold jobAdvances at h
  rw [if_neg (by simp [he])] at h
  by_contra hr
  simp [hl, hr] at h

namespace Record

/-- The epoch of a copy never goes down, a fresh submit aside. -/
theorem epoch_le_on (r : Record) (l : Job) (h : ∀ j, r ≠ .submit j) :
    l.epoch ≤ (r.on l).epoch := by
  cases r with
  | submit j => exact absurd rfl (h j)
  | replicate j =>
    simp only [on]
    split
    case isTrue hadv => exact jobAdvances_epoch hadv
    case isFalse => exact le_rfl
  | lease | done | expire | deadLetter =>
    simp only [on]
    split
    case isTrue hg => exact hg.1
    case isFalse => exact le_rfl
  | takeover =>
    simp only [on]
    split
    case isTrue hg => exact hg.le
    case isFalse => exact le_rfl

/-- A transition record leaves a done copy done. -/
theorem on_done (r : Record) (l : Job) (hr : r.full = none) (hl : l.state = .done) :
    (r.on l).state = .done := by
  cases r with
  | submit | replicate => simp [full] at hr
  | lease | done | expire | deadLetter => simp [on, hl]
  | takeover =>
    simp only [on]
    split <;> exact hl

/-- Applying a completion leaves the copy done unless it is fenced off. -/
theorem on_done_self (id : JobId) (epoch leaseSeq : Nat) (l : Job) (h : l.epoch ≤ epoch) :
    ((Record.done id epoch leaseSeq).on l).state = .done := by
  by_cases hl : l.state = .done
  · simp [on, hl]
  · simp [on, h, hl]

/-- A transition record leaves alone what was fixed at submit. -/
theorem on_same (r : Record) (l : Job) (hr : r.full = none) : SameJob (r.on l) l := by
  cases r with
  | submit | replicate => simp [full] at hr
  | lease | done | expire | deadLetter | takeover =>
    simp only [on]
    split <;> exact ⟨rfl, rfl, rfl, rfl, rfl, rfl⟩

/-- A full copy replaces the stored one, or leaves it as it is. -/
theorem on_full {r : Record} {j : Job} (l : Job) (h : r.full = some j) :
    r.on l = j ∨ r.on l = l := by
  cases r with
  | submit j' =>
    left
    rw [full, Option.some.injEq] at h
    rw [on, h]
  | replicate j' =>
    rw [full, Option.some.injEq] at h
    rw [on, h]
    split
    · exact Or.inl rfl
    · exact Or.inr rfl
  | lease | done | expire | deadLetter | takeover => simp [full] at h

/-- Only a takeover and a full copy change the owner. -/
theorem on_owner (r : Record) (l : Job) (hr : r.full = none) (ht : ∀ id e o, r ≠ .takeover id e o) :
    (r.on l).owner = l.owner := by
  cases r with
  | submit | replicate => simp [full] at hr
  | lease | done | expire | deadLetter =>
    simp only [on]
    split <;> rfl
  | takeover id e o => exact absurd rfl (ht id e o)

end Record

/-- A table files every copy under the copy's own id. -/
theorem replay_find_id (wal : List Record) (id : JobId) (j : Job)
    (h : (replay wal).find id = some j) : j.id = id := by
  induction wal using List.reverseRecOn generalizing j with
  | nil => simp [replay, Table.find] at h
  | append_singleton wal r ih =>
    rw [replay_snoc, Table.find_apply] at h
    by_cases hid : r.jobId = id
    · rw [if_pos hid] at h
      cases hfind : (replay wal).find id with
      | none =>
        rw [hfind, Record.effect] at h
        rw [Record.full_jobId h, hid]
      | some l =>
        rw [hfind, Record.effect, Option.some.injEq] at h
        have hl : l.id = id := ih l hfind
        cases r with
        | submit j' => rw [← h, Record.on, ← hid, Record.jobId]
        | replicate j' =>
          rw [← h, Record.on]
          split
          · exact hid
          · exact hl
        | lease | done | expire | deadLetter | takeover =>
          rw [← h]
          exact (Record.on_same _ l rfl).id.trans hl
    · rw [if_neg hid] at h
      exact ih j h

/-- A copy some prefix of a log replays to. -/
def Held (log : List Record) (id : JobId) (j : Job) : Prop :=
  ∃ t, Visited Table.apply {} log t ∧ t.find id = some j

theorem Held.mono {log log' : List Record} {id : JobId} {j : Job} (hp : log <+: log')
    (h : Held log id j) : Held log' id j := by
  rcases h with ⟨t, ht, hj⟩
  exact ⟨t, ht.mono hp, hj⟩

theorem Held.job_id {log : List Record} {id : JobId} {j : Job} (h : Held log id j) : j.id = id := by
  rcases h with ⟨t, ⟨v, _, ht⟩, hf⟩
  rw [ht] at hf
  exact replay_find_id v id j hf

theorem not_held_nil (id : JobId) (j : Job) : ¬ Held [] id j := by
  rintro ⟨t, ⟨v, hv, ht⟩, hf⟩
  rw [List.prefix_nil.mp hv] at ht
  rw [ht] at hf
  cases hf

theorem held_last {log : List Record} {id : JobId} {j : Job} (h : (replay log).find id = some j) :
    Held log id j :=
  ⟨_, .last, h⟩

theorem held_snoc (log : List Record) (r : Record) (id : JobId) (j : Job) :
    Held (log ++ [r]) id j ↔ Held log id j ∨ ((replay log).apply r).find id = some j := by
  constructor
  · rintro ⟨t, ht, hj⟩
    rcases (Visited.snoc r).mp ht with hold | hnew
    · exact Or.inl ⟨t, hold, hj⟩
    · right
      rw [hnew] at hj
      exact hj
  · rintro (h | h)
    · exact h.mono (List.prefix_append log [r])
    · exact ⟨_, (Visited.snoc r).mpr (Or.inr rfl), h⟩

/-- The copies a longer log holds beyond a shorter one are what the new record
    left of its own job. -/
theorem held_snoc_cases {log : List Record} {r : Record} {id : JobId} {j : Job}
    (h : Held (log ++ [r]) id j) :
    Held log id j ∨ (r.jobId = id ∧ r.effect ((replay log).find id) = some j) := by
  rcases (held_snoc log r id j).mp h with hold | hnew
  · exact Or.inl hold
  · rw [Table.find_apply] at hnew
    by_cases hid : r.jobId = id
    · rw [if_pos hid] at hnew
      exact Or.inr ⟨hid, hnew⟩
    · rw [if_neg hid] at hnew
      exact Or.inl (held_last hnew)

end Tautq
