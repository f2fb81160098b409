import Mathlib.Data.List.AList

/-!
# Reading a Finite Map After a Change

What an entry of a finite map tells about the map before an insertion or a
removal. Invariants about the entries of a map are proved by these two case
distinctions. The same for a list of records that are replaced in place.

## Theorems

* `lookup_insert_cases`: An entry after an insertion is the new one or an old
  one.
* `lookup_erase_cases`: An entry after a removal is an old one, elsewhere.
* `entries_perm_erase`: An entry and the entries without it are all entries.
* `lookup_foldl_insert`: Of entries with different keys that are put in one by one, every
  one is there.
* `filterMap_set_sublist`, `filterMap_set_perm`: What replacing an entry of a list
  does to the values read off the list.
* `filterMap_position`: A value that is read off once has one position.
-/

namespace Tautq

variable {α β : Type} [DecidableEq α] {s : AList (fun _ : α => β)} {a a' : α} {b b' : β}

theorem lookup_insert_cases (h : (s.insert a b).lookup a' = some b') :
    (a' = a ∧ b' = b) ∨ (a' ≠ a ∧ s.lookup a' = some b') := by
  by_cases ha : a' = a
  · subst ha
    rw [AList.lookup_insert, Option.some.injEq] at h
    exact Or.inl ⟨rfl, h.symm⟩
  · rw [AList.lookup_insert_ne ha] at h
    exact Or.inr ⟨ha, h⟩

theorem lookup_erase_cases (h : (s.erase a).lookup a' = some b') :
    a' ≠ a ∧ s.lookup a' = some b' := by
  by_cases ha : a' = a
  · subst ha
    rw [AList.lookup_erase] at h
    cases h
  · rw [AList.lookup_erase_ne ha] at h
    exact ⟨ha, h⟩

/-- An entry and the entries without it are all entries. -/
theorem entries_perm_erase (h : s.lookup a = some b) :
    s.entries.Perm (⟨a, b⟩ :: (s.erase a).entries) := by
  have hmem : a ∈ s.entries.keys := AList.lookup_isSome.mp (h ▸ rfl)
  rcases List.exists_of_kerase hmem with ⟨b', l₁, l₂, _, heq, herase⟩
  have hb : b' = b := by
    have hin : Sigma.mk a b' ∈ s.entries := by rw [heq]; simp
    have hsome : s.lookup a = some b' := AList.mem_lookup_iff.mpr hin
    rw [hsome] at h
    exact Option.some.inj h
  have hrest : (s.erase a).entries = l₁ ++ l₂ := herase
  rw [hrest, heq, hb]
  exact List.perm_middle

theorem lookup_foldl_insert_of_ne {l : List (α × β)} (h : ∀ p ∈ l, p.1 ≠ a) :
    (l.foldl (fun s p => s.insert p.1 p.2) s).lookup a = s.lookup a := by
  induction l generalizing s with
  | nil => rfl
  | cons p l ih =>
    rw [List.foldl_cons, ih fun q hq => h q (List.mem_cons_of_mem p hq),
      AList.lookup_insert_ne (h p List.mem_cons_self).symm]

/-- Of entries with different keys that are put in one by one, every one is there. -/
theorem lookup_foldl_insert {l : List (α × β)} (hkeys : (l.map Prod.fst).Nodup) (h : (a, b) ∈ l) :
    (l.foldl (fun s p => s.insert p.1 p.2) s).lookup a = some b := by
  induction l generalizing s with
  | nil => cases h
  | cons p l ih =>
    rw [List.map_cons, List.nodup_cons] at hkeys
    rw [List.foldl_cons]
    rcases List.mem_cons.mp h with rfl | h
    · have hne : ∀ q ∈ l, q.1 ≠ a := fun q hq heq => hkeys.1 (List.mem_map.mpr ⟨q, hq, heq⟩)
      rw [lookup_foldl_insert_of_ne hne, AList.lookup_insert]
    · exact ih hkeys.2 h

/-- Replacing an entry by one that is dropped, or kept for the same value, drops at
    most that value. -/
theorem filterMap_set_sublist {α β : Type} (f : α → Option β) {l : List α} {q : Nat} {x x' : α}
    (hx : l[q]? = some x) (h : f x' = f x ∨ f x' = none) :
    ((l.set q x').filterMap f).Sublist (l.filterMap f) := by
  induction l generalizing q with
  | nil => simp at hx
  | cons a l ih =>
    cases q with
    | zero =>
      simp only [List.getElem?_cons_zero, Option.some.injEq] at hx
      subst hx
      rcases h with h | h
      · rw [List.set_cons_zero, List.filterMap_cons, List.filterMap_cons, h]
      · rw [List.set_cons_zero, List.filterMap_cons_none h]
        exact (List.sublist_cons_self a l).filterMap f
    | succ q =>
      have hih := ih (q := q) (by simpa using hx)
      rw [List.set_cons_succ, List.filterMap_cons, List.filterMap_cons]
      cases f a with
      | none => exact hih
      | some b => exact hih.cons_cons b

/-- Dropping an entry takes its value out. -/
theorem filterMap_set_perm {α β : Type} (f : α → Option β) {l : List α} {q : Nat} {x x' : α} {b : β}
    (hx : l[q]? = some x) (h : f x = some b) (h' : f x' = none) :
    (l.filterMap f).Perm (b :: (l.set q x').filterMap f) := by
  induction l generalizing q with
  | nil => simp at hx
  | cons a l ih =>
    cases q with
    | zero =>
      simp only [List.getElem?_cons_zero, Option.some.injEq] at hx
      subst hx
      rw [List.set_cons_zero, List.filterMap_cons_none h', List.filterMap_cons_some h]
    | succ q =>
      have hih := ih (q := q) (by simpa using hx)
      rw [List.set_cons_succ, List.filterMap_cons, List.filterMap_cons]
      cases f a with
      | none => exact hih
      | some b' => exact (hih.cons b').trans (List.Perm.swap b b' _)

/-- The positions of a value in a list without repetitions are one, also where other
    entries are skipped. -/
theorem filterMap_position {α β : Type} (f : α → Option β) {l : List α} (h : (l.filterMap f).Nodup)
    {i k : Nat} {a a' : α} {b : β} (hi : l[i]? = some a) (hk : l[k]? = some a') (ha : f a = some b)
    (ha' : f a' = some b) : i = k := by
  induction l generalizing i k with
  | nil => simp at hi
  | cons x l ih =>
    -- The head is one of the two entries and the other lies behind it, or both do.
    have hhead : ∀ {k : Nat} {a' : α}, f x = some b → l[k]? = some a' → f a' = some b → False := by
      intro k a' hx hk ha'
      rw [List.filterMap_cons_some hx, List.nodup_cons] at h
      exact h.1 (List.mem_filterMap.mpr ⟨a', List.mem_of_getElem? hk, ha'⟩)
    cases i with
    | zero =>
      cases k with
      | zero => rfl
      | succ k =>
        simp only [List.getElem?_cons_zero, Option.some.injEq, List.getElem?_cons_succ] at hi hk
        exact (hhead (hi ▸ ha) hk ha').elim
    | succ i =>
      cases k with
      | zero =>
        simp only [List.getElem?_cons_zero, Option.some.injEq, List.getElem?_cons_succ] at hi hk
        exact (hhead (hk ▸ ha') hi ha).elim
      | succ k =>
        simp only [List.getElem?_cons_succ] at hi hk
        have htail : (l.filterMap f).Nodup := by
          refine h.sublist ?_
          exact (List.sublist_cons_self x l).filterMap f
        rw [ih htail hi hk]

end Tautq
