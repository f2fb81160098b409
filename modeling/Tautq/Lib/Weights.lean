import Mathlib.Algebra.BigOperators.Group.Multiset.Basic
import Mathlib.Algebra.Order.BigOperators.Group.List
import Tautq.Lib.Assoc

/-!
# Weighing a Finite Map

The sum of a weight over the entries of a finite map, in any commutative monoid: a count with
weights zero and one, a bag of what the entries stand for with multisets. An insertion at a new
key adds its weight and a removal takes it away, whatever the order of the entries.

## Main definitions

* `weigh`: The weight of a finite map.

## Theorems

* `weigh_insert`, `weigh_erase`, `weigh_replace`: What a change of the map does to its weight.
* `exists_of_weigh_pos`: A map with a weight has an entry with one.
* `sum_map_set`: Replacing an entry of a list.
-/

namespace Tautq

variable {α β M : Type} [DecidableEq α] [AddCommMonoid M]

/-- The sum of the weights of all entries. -/
def weigh (g : α → β → M) (s : AList (fun _ : α => β)) : M :=
  (s.entries.map (fun e => g e.1 e.2)).sum

variable {g g' : α → β → M} {s : AList (fun _ : α => β)} {a : α} {b b' : β}

theorem weigh_insert (h : a ∉ s) (b : β) : weigh g (s.insert a b) = g a b + weigh g s := by
  rw [weigh, AList.entries_insert_of_notMem h, List.map_cons, List.sum_cons, weigh]

theorem weigh_erase (h : s.lookup a = some b) : weigh g s = g a b + weigh g (s.erase a) := by
  rw [weigh, ((entries_perm_erase h).map _).sum_eq, List.map_cons, List.sum_cons, weigh]

/-- What is put in over an entry is put in after taking the entry out. -/
theorem weigh_replace (b : β) : weigh g (s.insert a b) = g a b + weigh g (s.erase a) := by
  rw [weigh, AList.entries_insert, List.map_cons, List.sum_cons, weigh]
  rfl

/-- An entry that is put in and taken out again leaves the other entries. -/
theorem weigh_insert_erase (b : β) : weigh g ((s.insert a b).erase a) = weigh g (s.erase a) := by
  have herase : ((s.insert a b).erase a).entries = (s.erase a).entries := by
    change List.kerase a (s.insert a b).entries = List.kerase a s.entries
    rw [AList.entries_insert]
    exact List.kerase_cons_eq rfl
  rw [weigh, herase, weigh]

theorem weigh_erase_of_notMem (h : a ∉ s) : weigh g (s.erase a) = weigh g s := by
  have herase : (s.erase a).entries = s.entries := List.kerase_of_notMem_keys h
  rw [weigh, herase, weigh]

theorem weigh_congr (h : ∀ a b, s.lookup a = some b → g a b = g' a b) : weigh g s = weigh g' s := by
  unfold weigh
  refine congrArg List.sum (List.map_congr_left (fun e he => ?_))
  exact h e.1 e.2 (AList.mem_lookup_iff.mpr he)

/-- A map with a weight has an entry with one. -/
theorem exists_of_weigh_pos {g : α → β → Nat} {s : AList (fun _ : α => β)} (h : 0 < weigh g s) :
    ∃ a b, s.lookup a = some b ∧ 0 < g a b := by
  by_contra hnone
  have hzero : weigh g s = weigh (fun _ _ => 0) s := by
    refine weigh_congr (fun a b hab => ?_)
    by_contra hne
    exact hnone ⟨a, b, hab, Nat.pos_of_ne_zero hne⟩
  rw [hzero] at h
  simp [weigh] at h

/-- Replacing an entry of a list replaces its weight. -/
theorem sum_map_set {α M : Type} [AddCommMonoid M] (f : α → M) {l : List α} {q : Nat} {a b : α}
    (ha : l[q]? = some a) : f a + ((l.set q b).map f).sum = f b + (l.map f).sum := by
  induction l generalizing q with
  | nil => simp at ha
  | cons c l ih =>
    cases q with
    | zero =>
      simp only [List.getElem?_cons_zero, Option.some.injEq] at ha
      rw [List.set_cons_zero, List.map_cons, List.sum_cons, List.map_cons, List.sum_cons, ha,
        add_left_comm]
    | succ q =>
      rw [List.set_cons_succ, List.map_cons, List.sum_cons, List.map_cons, List.sum_cons,
        add_left_comm, ih (by simpa using ha), add_left_comm]

/-- The bag of what the entries of a list stand for. -/
theorem coe_flatMap {α β : Type} (l : List α) (f : α → List β) :
    (l.flatMap f : Multiset β) = (l.map (fun a => (f a : Multiset β))).sum := by
  induction l with
  | nil => rfl
  | cons a l ih => rw [List.flatMap_cons, ← Multiset.coe_add, ih, List.map_cons, List.sum_cons]

theorem sum_map_singleton {β : Type} (l : List β) : (l.map (fun b => ({b} : Multiset β))).sum = l :=
  (coe_flatMap l (fun b => [b])).symm.trans (by rw [List.flatMap_singleton'])

end Tautq
