import Mathlib.Data.List.Induction
import Mathlib.Data.List.Nodup
import Mathlib.Data.List.Sort

/-!
# Filing Systems

A filing system keeps items under their ids, and an index from keys to ids that
names, for each key, the item that was put in last. Several items can have one key.

Putting the items of a filing system into an empty one, each of them once, gives
back the items in whatever order. It gives back the index as well, if of the items
with one key the one the index names comes last. Sorting by `Rank` puts it there.

## Main definitions

* `Filing`: Items under their ids, with an index.
* `Filing.Tidy`: The items are under their own ids, and the index is about them.
* `Rank`, `Rank.before`: By key, then the one the index names last, then by id.

## Theorems

* `Filing.find_foldl`: What is found after putting in different items.
* `Filing.find_rebuild`, `Filing.index_rebuild`: The items and the index are given
  back.
* `Rank.total`, `Rank.trans`: The order can be sorted by.
-/

namespace Tautq

/-- Operations that keep items under their ids and index them by their keys. What a put does to
    an item that is there already is not said. -/
structure Filing (σ ι κ α : Type) [DecidableEq κ] where
  find : σ → ι → Option α
  index : σ → κ → Option ι
  put : σ → α → σ
  id : α → ι
  key : α → κ
  find_other : ∀ s a i, id a ≠ i → find (put s a) i = find s i
  find_new : ∀ s a, find s (id a) = none → find (put s a) (id a) = some a
  index_put : ∀ s a k, index (put s a) k = if key a = k then some (id a) else index s k

namespace Filing

variable {σ ι κ α : Type} [DecidableEq κ] (F : Filing σ ι κ α) {s e : σ} {l : List α}

/-- Every item is under its own id, its key is in the index, and the index names items by their
    keys. -/
structure Tidy (s : σ) : Prop where
  own : ∀ {i a}, F.find s i = some a → F.id a = i
  indexed : ∀ {i a}, F.find s i = some a → ∃ i', F.index s (F.key a) = some i'
  named : ∀ {k i}, F.index s k = some i → ∃ a, F.find s i = some a ∧ F.key a = k

/-- Different items put into an empty filing system are all found, and nothing else is. -/
theorem find_foldl (he : ∀ i, F.find e i = none) (hl : (l.map F.id).Nodup) (i : ι) (a : α) :
    F.find (l.foldl F.put e) i = some a ↔ a ∈ l ∧ F.id a = i := by
  induction l using List.reverseRecOn generalizing i a with
  | nil => simp [he]
  | append_singleton l b ih =>
    rw [List.map_append, List.nodup_append] at hl
    have ih := ih hl.1
    rw [List.foldl_append, List.foldl_cons, List.foldl_nil]
    by_cases hid : F.id b = i
    · -- No item with this id was put in before.
      have hnone : F.find (l.foldl F.put e) (F.id b) = none := by
        refine Option.eq_none_iff_forall_ne_some.mpr (fun c hc => ?_)
        rcases (ih _ _).mp hc with ⟨hmem, hc⟩
        exact hl.2.2 _ (List.mem_map_of_mem hmem) (F.id b) (by simp) hc
      rw [← hid, F.find_new _ _ hnone, Option.some.injEq]
      constructor
      · rintro rfl
        exact ⟨by simp, rfl⟩
      · rintro ⟨hmem, ha⟩
        rcases List.mem_append.mp hmem with hmem | hmem
        · have hsome := (ih _ _).mpr ⟨hmem, ha⟩
          rw [hnone] at hsome
          cases hsome
        · exact (List.mem_singleton.mp hmem).symm
    · rw [F.find_other _ _ _ hid, ih, List.mem_append, List.mem_singleton]
      constructor
      · exact fun h => ⟨Or.inl h.1, h.2⟩
      · rintro ⟨hmem | rfl, ha⟩
        · exact ⟨hmem, ha⟩
        · exact absurd ha hid

/-- Items with other keys leave the index of a key alone. -/
theorem index_foldl_other {k : κ} (hl : ∀ b ∈ l, F.key b ≠ k) :
    F.index (l.foldl F.put s) k = F.index s k := by
  induction l generalizing s with
  | nil => rfl
  | cons b l ih =>
    rw [List.foldl_cons, ih (fun c hc => hl c (List.mem_cons_of_mem b hc)), F.index_put,
      if_neg (hl b List.mem_cons_self)]

/-- The last item with a key is the one the index names. -/
theorem index_foldl {pre post : List α} {a : α} (hpost : ∀ b ∈ post, F.key b ≠ F.key a) :
    F.index ((pre ++ a :: post).foldl F.put s) (F.key a) = some (F.id a) := by
  rw [List.foldl_append, List.foldl_cons, F.index_foldl_other hpost, F.index_put, if_pos rfl]

/-- Whether the index names an item. -/
def Selected (s : σ) (a : α) : Prop :=
  F.index s (F.key a) = some (F.id a)

section Rebuild

variable (hnodup : (l.map F.id).Nodup) (hmem : ∀ a, a ∈ l ↔ F.find s (F.id a) = some a)

include hnodup hmem

theorem find_rebuild (own : ∀ {i a}, F.find s i = some a → F.id a = i) (he : ∀ i, F.find e i = none)
    (i : ι) : F.find (l.foldl F.put e) i = F.find s i := by
  refine Option.ext (fun a => ?_)
  rw [F.find_foldl he hnodup, hmem]
  constructor
  · rintro ⟨h, rfl⟩
    exact h
  · intro h
    have hid := own h
    exact ⟨by rw [hid]; exact h, hid⟩

/-- The index is given back where no item is put in after the one it names with its key. -/
theorem index_rebuild (hs : F.Tidy s) (he : ∀ k, F.index e k = none)
    (hlast : l.Pairwise (fun a b => F.key a = F.key b → F.Selected s a → F.Selected s b)) (k : κ) :
    F.index (l.foldl F.put e) k = F.index s k := by
  cases hk : F.index s k with
  | none =>
    rw [F.index_foldl_other (fun b hb hbk => ?_), he]
    rcases hs.indexed ((hmem b).mp hb) with ⟨i', hi'⟩
    rw [hbk, hk] at hi'
    cases hi'
  | some i =>
    rcases hs.named hk with ⟨a, ha, rfl⟩
    have hid := hs.own ha
    rcases List.append_of_mem ((hmem a).mpr (by rw [hid]; exact ha)) with ⟨pre, post, rfl⟩
    rw [← hid]
    refine F.index_foldl (fun b hb hbk => ?_)
    -- An item after it with its key would be selected as well, and so have its id.
    have hsel : F.Selected s a := by rw [Selected, hk, hid]
    have hsel' := (List.pairwise_cons.mp (List.pairwise_append.mp hlast).2.1).1 b hb hbk.symm hsel
    rw [Selected, hbk, hk, ← hid, Option.some.injEq] at hsel'
    rw [List.map_append, List.nodup_append, List.map_cons, List.nodup_cons] at hnodup
    exact hnodup.2.1.1 (hsel' ▸ List.mem_map_of_mem hb)

end Rebuild

end Filing

/-! ### The order -/

/-- Where an item stands: its key, whether the index names it, and the two halves of its id. -/
structure Rank where
  key : List UInt8
  selected : Bool
  high : Nat
  low : Nat

namespace Rank

/-- By key, the one the index names after the others, then by id. -/
def before (a b : Rank) : Bool :=
  if a.key ≠ b.key then a.key < b.key
  else if a.selected ≠ b.selected then !a.selected
  else a.high < b.high || (a.high = b.high && a.low < b.low)

/-- One rank is not after another. -/
theorem before_eq_false (a b : Rank) : before b a = false ↔ a.key < b.key ∨
    (a.key = b.key ∧ ((a.selected = false ∧ b.selected = true) ∨
      (a.selected = b.selected ∧ (a.high < b.high ∨ (a.high = b.high ∧ a.low ≤ b.low))))) := by
  unfold before
  by_cases hkey : b.key = a.key
  · rw [if_neg (by simpa using hkey)]
    cases a.selected <;> cases b.selected <;> simp [hkey, List.lt_irrefl] <;> grind
  · have hne : a.key ≠ b.key := fun h => hkey h.symm
    rw [if_pos hkey]
    simp only [decide_eq_false_iff_not, hne, false_and, or_false]
    constructor
    · intro h
      by_contra hlt
      exact hne (List.le_antisymm h hlt)
    · exact fun h h' => List.lt_irrefl _ (List.lt_trans h h')

theorem total (a b : Rank) : before b a = false ∨ before a b = false := by
  rw [before_eq_false, before_eq_false]
  by_cases hkey : a.key = b.key
  · cases a.selected <;> cases b.selected <;> simp [hkey] <;> omega
  · by_cases hlt : a.key < b.key
    · exact Or.inl (Or.inl hlt)
    · right
      left
      by_contra hlt'
      exact hkey (List.le_antisymm hlt' hlt)

theorem trans {a b c : Rank} (h : before b a = false) (h' : before c b = false) :
    before c a = false := by
  rw [before_eq_false] at h h' ⊢
  rcases h with hlt | ⟨hkey, h⟩ <;> rcases h' with hlt' | ⟨hkey', h'⟩
  · exact Or.inl (List.lt_trans hlt hlt')
  · exact Or.inl (hkey' ▸ hlt)
  · exact Or.inl (hkey ▸ hlt')
  · refine Or.inr ⟨hkey.trans hkey', ?_⟩
    grind

/-- After a selected item there are only selected ones with its key. -/
theorem selected_of_before {a b : Rank} (h : before b a = false) (hkey : a.key = b.key)
    (hsel : a.selected = true) : b.selected = true := by
  rw [before_eq_false] at h
  rcases h with hlt | ⟨_, h | h⟩
  · exact absurd (hkey ▸ hlt) (List.lt_irrefl _)
  · exact h.2
  · exact h.1 ▸ hsel

/-- Items sorted by their ranks. -/
theorem pairwise_sort {α : Type} (rank : α → Rank) (l : List α) :
    (l.insertionSort (fun a b => before (rank b) (rank a) = false)).Pairwise
      (fun a b => before (rank b) (rank a) = false) := by
  have : Std.Total (fun a b : α => before (rank b) (rank a) = false) :=
    ⟨fun a b => total (rank a) (rank b)⟩
  have : IsTrans α (fun a b => before (rank b) (rank a) = false) := ⟨fun _ _ _ h h' => trans h h'⟩
  exact List.pairwise_insertionSort _ _

end Rank

end Tautq
