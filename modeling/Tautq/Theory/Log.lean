import Tautq.Core.Copy

/-!
# Logs

Facts about a log alone, by induction on it. A stored copy is never dropped. In
a log where no submit record meets an existing copy, the epoch of a copy never
goes down. The idempotency index has an entry for the key of every full copy
ever logged, and every entry comes from one.

## Main definitions

* `Proper`: No submit record meets an existing copy.
* `Steps`: Every record takes the copy it meets along a relation.

## Theorems

* `replay_find_mono`: A stored copy is never dropped.
* `Steps.held`: Every copy held is linked to the current one.
* `Proper.epoch_le`: A held copy's epoch is at most the current one's.
* `Proper.held_late`: Copies held later are of later epochs.
* `replay_indexed`, `replay_index_origin`: The idempotency index.
-/

namespace Tautq

/-- No submit record meets an existing copy. -/
def Proper (log : List Record) : Prop :=
  ∀ w b, w ++ [.submit b] <+: log → (replay w).find b.id = none

theorem Proper.mono {log log' : List Record} (h : log <+: log') (hp : Proper log') : Proper log :=
  fun w b hw => hp w b (hw.trans h)

/-- One more record. -/
theorem Proper.snoc {log : List Record} {r : Record} (hp : Proper log)
    (hr : ∀ b, r = .submit b → (replay log).find b.id = none) : Proper (log ++ [r]) := by
  intro w b hw
  rcases List.prefix_concat_iff.mp hw with hlast | hold
  · have heq := List.append_inj' hlast rfl
    rw [heq.1]
    exact hr b (List.singleton_inj.mp heq.2).symm
  · exact hp w b hold

theorem replay_find_mono {log log' : List Record} {id : JobId} {l : Job} (h : log <+: log')
    (hl : (replay log).find id = some l) : ∃ l', (replay log').find id = some l' := by
  rcases h with ⟨rest, rfl⟩
  induction rest using List.reverseRecOn with
  | nil => exact ⟨l, by rwa [List.append_nil]⟩
  | append_singleton rest r ih =>
    rcases ih with ⟨l', hl'⟩
    rw [← List.append_assoc, replay_snoc]
    exact ⟨_, find_apply_of_some r hl'⟩

/-- Every record of a log takes the copy it meets along a relation. -/
def Steps (R : Job → Job → Prop) (log : List Record) : Prop :=
  ∀ v r l, v ++ [r] <+: log → (replay v).find r.jobId = some l → R l (r.on l)

namespace Steps

variable {R : Job → Job → Prop} {log log' : List Record}

theorem mono (h : log <+: log') (hs : Steps R log') : Steps R log :=
  fun v r l hv => hs v r l (hv.trans h)

/-- One more record. -/
theorem snoc {r : Record} (hs : Steps R log)
    (hr : ∀ l, (replay log).find r.jobId = some l → R l (r.on l)) : Steps R (log ++ [r]) := by
  intro v r' l hv
  rcases List.prefix_concat_iff.mp hv with hlast | hold
  · have heq := List.append_inj' hlast rfl
    rw [heq.1, List.singleton_inj.mp heq.2]
    exact hr l
  · exact hs v r' l hold

/-- Every copy held is linked to the current one. -/
theorem held (hrefl : ∀ j, R j j) (htrans : ∀ {a b c}, R a b → R b c → R a c) (hs : Steps R log)
    {id : JobId} {j : Job} (hj : Held log id j) : ∃ l, (replay log).find id = some l ∧ R j l := by
  induction log using List.reverseRecOn with
  | nil => exact absurd hj (not_held_nil id j)
  | append_singleton log r ih =>
    rcases (held_snoc log r id j).mp hj with hold | hnew
    · rcases ih (hs.mono (List.prefix_append _ _)) hold with ⟨l, hl, hjl⟩
      refine ⟨_, by rw [replay_snoc]; exact find_apply_of_some r hl, ?_⟩
      split
      · rename_i hid
        exact htrans hjl (hs log r l List.prefix_rfl (hid ▸ hl))
      · exact hjl
    · exact ⟨j, by rw [replay_snoc]; exact hnew, hrefl j⟩

end Steps

theorem Proper.steps {log : List Record} (hp : Proper log) :
    Steps (fun a b => a.epoch ≤ b.epoch) log := by
  intro v r l hv hl
  refine r.epoch_le_on l ?_
  rintro b rfl
  have hnone := hp v b hv
  rw [show (replay v).find b.id = some l from hl] at hnone
  cases hnone

/-- The epoch of a copy never goes down. -/
theorem Proper.epoch_le {log : List Record} {id : JobId} {j : Job} (hp : Proper log)
    (hj : Held log id j) : ∃ l, (replay log).find id = some l ∧ j.epoch ≤ l.epoch :=
  Steps.held (R := fun a b => a.epoch ≤ b.epoch) (fun _ => le_rfl)
    (fun h h' => h.trans h') hp.steps hj

/-- A copy held later was held before, or its epoch is at least that of every
    copy held before. -/
theorem Proper.held_late {log log' : List Record} {id : JobId} {j : Job} (hp : Proper log')
    (h : log <+: log') (hj : Held log' id j) :
    Held log id j ∨ ∀ j₀, Held log id j₀ → j₀.epoch ≤ j.epoch := by
  rcases h with ⟨rest, rfl⟩
  induction rest using List.reverseRecOn with
  | nil =>
    left
    rwa [List.append_nil] at hj
  | append_singleton rest r ih =>
    rw [← List.append_assoc] at hj hp
    rcases (held_snoc _ r id j).mp hj with hold | hnew
    · exact ih (hp.mono (List.prefix_append _ _)) hold
    · right
      intro j₀ hj₀
      have hmono : log <+: log ++ rest ++ [r] := by
        rw [List.append_assoc]
        exact List.prefix_append _ _
      rcases hp.epoch_le (hj₀.mono hmono) with ⟨l, hl, hle⟩
      rw [replay_snoc, hnew, Option.some.injEq] at hl
      rw [hl]
      exact hle

/-- The key of every full copy ever logged is indexed, at a stored copy. -/
theorem replay_indexed {log : List Record} {r : Record} {j : Job} (hr : r ∈ log)
    (hj : r.full = some j) : ∃ j', (replay log).findByIdem j.idemKey = some j' := by
  induction log using List.reverseRecOn with
  | nil => cases hr
  | append_singleton log r' ih =>
    rw [replay_snoc]
    unfold Table.findByIdem
    rw [Table.byIdem_apply]
    -- The entry the last record leaves: its own, or the one there was.
    have hlast : ∀ j', r'.full = some j' → ∃ l, ((replay log).apply r').find j'.id = some l := by
      intro j' hj'
      have hid : r'.jobId = j'.id := (Record.full_jobId hj').symm
      rw [Table.find_apply, if_pos hid]
      cases (replay log).find j'.id with
      | none => exact ⟨j', hj'⟩
      | some l => exact ⟨_, rfl⟩
    have hkeep : (∃ j', (replay log).findByIdem j.idemKey = some j') →
        ∃ j', ((replay log).byIdem.lookup j.idemKey).bind ((replay log).apply r').find =
        some j' := by
      rintro ⟨j', hj'⟩
      unfold Table.findByIdem at hj'
      rcases Option.bind_eq_some_iff.mp hj' with ⟨id, hid, hfind⟩
      rw [hid, Option.bind_some]
      exact ⟨_, find_apply_of_some r' hfind⟩
    rcases List.mem_append.mp hr with hold | hnew
    · have hold' := ih hold
      cases hfull : r'.full with
      | none => exact hkeep hold'
      | some j' =>
        simp only
        by_cases hkey : j'.idemKey = j.idemKey
        · rw [if_pos hkey, Option.bind_some]
          exact hlast j' hfull
        · rw [if_neg hkey]
          exact hkeep hold'
    · rw [← List.mem_singleton.mp hnew, hj]
      simp only [if_true, Option.bind_some]
      rw [List.mem_singleton.mp hnew] at hj ⊢
      exact hlast j hj

/-- Every stored copy is of a job some record of the log is a full copy of. -/
theorem replay_origin {log : List Record} {id : JobId} {j : Job}
    (h : (replay log).find id = some j) : ∃ r ∈ log, ∃ j', r.full = some j' ∧ SameJob j j' := by
  induction log using List.reverseRecOn generalizing j with
  | nil => cases h
  | append_singleton log r ih =>
    have hold : ∀ {l}, (replay log).find id = some l → SameJob j l →
        ∃ r' ∈ log ++ [r], ∃ j', r'.full = some j' ∧ SameJob j j' := by
      intro l hl hsame
      rcases ih hl with ⟨r', hr', j', hfull, hsame'⟩
      exact ⟨r', List.mem_append_left _ hr', j', hfull, hsame.trans hsame'⟩
    have hnew : r.full = some j → ∃ r' ∈ log ++ [r], ∃ j', r'.full = some j' ∧ SameJob j j' :=
      fun hfull => ⟨r, List.mem_append_right _ (List.mem_singleton.mpr rfl), j, hfull, .refl j⟩
    rw [replay_snoc, Table.find_apply] at h
    by_cases hid : r.jobId = id
    · rw [if_pos hid] at h
      cases hfind : (replay log).find id with
      | none =>
        rw [hfind, Record.effect] at h
        exact hnew h
      | some l =>
        rw [hfind, Record.effect, Option.some.injEq] at h
        cases hfull : r.full with
        | none => exact hold hfind (h ▸ r.on_same l hfull)
        | some j' =>
          rcases r.on_full l hfull with hon | hon
          · exact hnew (by rw [hfull, ← hon, h])
          · exact hold hfind (by rw [← h, hon]; exact .refl l)
    · rw [if_neg hid] at h
      exact hold h (.refl j)

/-- Every index entry comes from a full copy with that key and id. -/
theorem replay_index_origin {log : List Record} {key : Bytes} {id : JobId}
    (h : (replay log).byIdem.lookup key = some id) :
    ∃ r ∈ log, ∃ j, r.full = some j ∧ j.idemKey = key ∧ j.id = id := by
  induction log using List.reverseRecOn with
  | nil => cases h
  | append_singleton log r ih =>
    rw [replay_snoc, Table.byIdem_apply] at h
    have hold : (replay log).byIdem.lookup key = some id →
        ∃ r' ∈ log ++ [r], ∃ j, r'.full = some j ∧ j.idemKey = key ∧ j.id = id := by
      intro h'
      rcases ih h' with ⟨r', hr', hj⟩
      exact ⟨r', List.mem_append_left _ hr', hj⟩
    cases hfull : r.full with
    | none =>
      rw [hfull] at h
      exact hold h
    | some j =>
      rw [hfull] at h
      simp only at h
      by_cases hkey : j.idemKey = key
      · rw [if_pos hkey, Option.some.injEq] at h
        exact ⟨r, List.mem_append_right _ (List.mem_singleton.mpr rfl), j, hfull, hkey, h⟩
      · rw [if_neg hkey] at h
        exact hold h

end Tautq
