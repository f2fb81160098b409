import Mathlib.Data.List.MinMax
import Mathlib.Data.Prod.Lex
import Tautq.Core.Copy

/-!
# The Merge Order

Every path that merges full copies asks the same question: does the other copy
strictly advance ours? The rule is five comparisons in a row, each asked only
where the ones before it are even, and two of them are tests of one state
against all others. Read as a key it is a lexicographic order: the epoch, whether
the job is done, whether it is parked, the lease sequence number, whether it is
leased. `jobAdvances_iff` says that a copy advances another when its key is
larger.

All that is asked of the rule follows from the keys being linearly ordered. Two
copies that do not advance each other have equal keys, and equal keys mean equal
epochs, states and sequence numbers. Keeping the better of two copies, one after
the other, computes a copy with the largest key, and the largest key does not
depend on the order.

## Main definitions

* `Job.rank`: The key of a copy in the merge order.
* `Job.version`: What copies of one rank agree on.

## Theorems

* `jobAdvances_iff`: A copy advances another when its rank is larger.
* `jobAdvances_strict`: The rule is a strict weak order.
* `rank_eq_iff`: Copies of one rank agree on epoch, state and lease sequence.
* `find_replicate`: A table that is sent full copies keeps one of the largest
  rank.
* `argmax_version`: The largest rank does not depend on the order.
-/

namespace Tautq

/-- The key of a copy in the merge order. -/
def Job.rank (j : Job) : ℕ ×ₗ Bool ×ₗ Bool ×ₗ ℕ ×ₗ Bool :=
  toLex (j.epoch, toLex (decide (j.state = .done), toLex (decide (j.state = .deadLetter),
    toLex (j.leaseSeq, decide (j.state = .leased)))))

/-- The epoch, the state and the lease sequence number of a copy. -/
def Job.version (j : Job) : Nat × JobState × Nat :=
  (j.epoch, j.state, j.leaseSeq)

theorem jobAdvances_iff (a b : Job) : jobAdvances a b = true ↔ a.rank < b.rank := by
  simp only [Job.rank, Prod.Lex.toLex_lt_toLex, jobAdvances]
  by_cases he : b.epoch = a.epoch
  swap
  · rw [if_pos he, decide_eq_true_eq]
    exact ⟨Or.inl, fun h => h.resolve_right (fun h' => he h'.1.symm)⟩
  rw [if_neg (not_not.mpr he), he]
  by_cases hq : b.leaseSeq = a.leaseSeq
  · rw [hq]
    cases ha : a.state <;> cases hb : b.state <;> simp
  · have hne : ¬ a.leaseSeq = b.leaseSeq := Ne.symm hq
    cases ha : a.state <;> cases hb : b.state <;> simp [hq, hne]

theorem jobAdvances_eq_false (a b : Job) : jobAdvances a b = false ↔ b.rank ≤ a.rank := by
  rw [← not_lt, ← jobAdvances_iff, Bool.not_eq_true]

/-- Copies of one rank agree on epoch, state and lease sequence. -/
theorem rank_eq_iff (a b : Job) : a.rank = b.rank ↔ a.version = b.version := by
  rw [Job.rank, Job.rank, Job.version, Job.version]
  cases ha : a.state <;> cases hb : b.state <;> simp

/-- The merge rule is a strict weak order. -/
theorem jobAdvances_strict : IsStrictWeakOrder Job (fun a b => jobAdvances a b = true) where
  irrefl a h := lt_irrefl _ ((jobAdvances_iff a a).mp h)
  trans a b c h h' := (jobAdvances_iff a c).mpr
    (((jobAdvances_iff a b).mp h).trans ((jobAdvances_iff b c).mp h'))
  incomp_trans a b c h h' := by
    simp only [Bool.not_eq_true, jobAdvances_eq_false] at h h' ⊢
    exact ⟨h'.1.trans h.1, h.2.trans h'.2⟩

/-- Of two lists with the same copies the largest rank is the same. -/
theorem argmax_version {cs cs' : List Job} (h : ∀ j, j ∈ cs' ↔ j ∈ cs) :
    (cs'.argmax Job.rank).map Job.version = (cs.argmax Job.rank).map Job.version := by
  cases hm : cs.argmax Job.rank with
  | none =>
    have hnil : cs' = [] := by
      rw [List.argmax_eq_none] at hm
      refine List.eq_nil_iff_forall_not_mem.mpr (fun j hj => ?_)
      rw [h, hm] at hj
      cases hj
    rw [hnil, List.argmax_nil]
  | some m =>
    cases hm' : cs'.argmax Job.rank with
    | none =>
      rw [List.argmax_eq_none] at hm'
      have hmem := (h m).mpr (List.argmax_mem hm)
      rw [hm'] at hmem
      cases hmem
    | some m' =>
      -- Each of the two is among the copies the other one is largest of.
      have hle := List.le_of_mem_argmax ((h m').mp (List.argmax_mem hm')) hm
      have hge := List.le_of_mem_argmax ((h m).mpr (List.argmax_mem hm)) hm'
      rw [Option.map_some, Option.map_some, (rank_eq_iff m' m).mp (le_antisymm hle hge)]

/-- A full copy replaces a stored one as the larger of two. -/
theorem effect_replicate_argAux (l : Option Job) (j : Job) :
    (Record.replicate j).effect l = List.argAux (fun b c => c.rank < b.rank) l j := by
  cases l with
  | none => rfl
  | some l =>
    rw [Record.effect, Record.on, List.argAux]
    by_cases h : jobAdvances l j = true
    · simp only [if_pos h, if_pos ((jobAdvances_iff l j).mp h)]
    · simp only [if_neg h, if_neg (fun h' => h ((jobAdvances_iff l j).mpr h'))]

/-- A table without a job that is sent full copies of it keeps one of the largest rank. -/
theorem find_replicate (t : Table) {id : JobId} {cs : List Job} (hid : ∀ j ∈ cs, j.id = id)
    (hnew : t.find id = none) :
    ((cs.map Record.replicate).foldl Table.apply t).find id = cs.argmax Job.rank := by
  rw [List.argmax, ← hnew]
  clear hnew
  induction cs generalizing t with
  | nil => rfl
  | cons j cs ih =>
    have hj : j.id = id := hid j List.mem_cons_self
    rw [List.map_cons, List.foldl_cons, List.foldl_cons,
      ih _ (fun k hk => hid k (List.mem_cons_of_mem j hk)), ← effect_replicate_argAux, ← hj]
    exact congrArg (List.foldl _ · cs) (Table.find_apply_self t (.replicate j))

end Tautq
