import Mathlib.Data.List.Perm.Basic
import Mathlib.Data.Nat.Find

/-!
# Lists in Any Order

What a list comes to can depend on its order: an element counts for more behind one that has
come before it. `Before` says that somewhere in a list one kind of element stands before
another. Reordered, a list can do without that unless two of its elements are of both kinds
(`exists_perm_not_before`), and then still have an element of a third kind behind one of the
first, if there is such an element at another place (`exists_perm_before`).

A `Contest` is what such orders are about. One side wins if it reaches every level that the
other side reaches. There are levels that a side reaches in any order, and there are
elements of a side that reach the level of whatever has come before them. Whether a side
wins in every order, and whether it wins in none, can be told from the list in any one order
(`Contest.always_iff`, `Contest.never_iff`).

## Main definitions

* `Before`, `Elsewhere`: An element of one kind stands before one of another, or at another place.
* `Contest`, `Contest.Wins`: Two sides, and the one that is judged.
* `Contest.Always`, `Contest.Never`: It wins in every order, and in none.

## Theorems

* `before_iff`: A list with one element before another.
* `before_flatten`: Two elements of one list, or of two.
* `Elsewhere.perm`: Different places, in any order.
* `exists_perm_not_before`, `exists_perm_before`: Orders without and with an element before
  another.
* `Contest.always_iff`, `Contest.never_iff`: What the order can change.
-/

namespace Tautq

variable {α : Type} {p q r : α → Bool} {l l' : List α}

/-! ### Before and beside -/

/-- Somewhere in a list an element of one kind stands before one of another. -/
def Before (p q : α → Bool) (l : List α) : Prop :=
  ¬ l.Pairwise fun x y => ¬ (p x = true ∧ q y = true)

instance : Decidable (Before p q l) :=
  inferInstanceAs (Decidable (¬ _))

theorem before_iff :
    Before p q l ↔ ∃ l₁ y l₂, l = l₁ ++ y :: l₂ ∧ q y = true ∧ ∃ x ∈ l₁, p x = true := by
  constructor
  · intro h
    rw [Before, List.pairwise_iff_forall_sublist] at h
    push Not at h
    rcases h with ⟨x, y, hsub, hx, hy⟩
    rcases List.cons_sublist_iff.mp hsub with ⟨r₁, r₂, rfl, hx₁, hy₂⟩
    rcases List.append_of_mem (List.singleton_sublist.mp hy₂) with ⟨s, t, rfl⟩
    exact ⟨r₁ ++ s, y, t, by simp, hy, x, List.mem_append_left s hx₁, hx⟩
  · rintro ⟨l₁, y, l₂, rfl, hy, x, hx, hpx⟩ hall
    exact (List.pairwise_append.mp hall).2.2 x hx y List.mem_cons_self ⟨hpx, hy⟩

theorem Before.imp {p' q' : α → Bool} (hp : ∀ x ∈ l, p x = true → p' x = true)
    (hq : ∀ x ∈ l, q x = true → q' x = true) (h : Before p q l) : Before p' q' l := by
  rcases before_iff.mp h with ⟨l₁, y, l₂, rfl, hy, x, hx, hpx⟩
  exact before_iff.mpr ⟨l₁, y, l₂, rfl, hq y (by simp) hy, x, hx, hp x (by simp [hx]) hpx⟩

theorem before_append : Before p q (l ++ l') ↔
    Before p q l ∨ Before p q l' ∨ (∃ x ∈ l, p x = true) ∧ ∃ y ∈ l', q y = true := by
  simp only [Before, List.pairwise_append]
  grind

/-- Two elements of one list, or of two. -/
theorem before_flatten {ls : List (List α)} : Before p q ls.flatten ↔
    (∃ l ∈ ls, Before p q l) ∨ Before (fun l => l.any p) (fun l => l.any q) ls := by
  simp only [Before, List.pairwise_flatten, List.any_eq_true]
  grind

/-- An element of one kind stands at another place than one of another kind. -/
def Elsewhere (p q : α → Bool) (l : List α) : Prop :=
  Before p q l ∨ Before q p l

instance : Decidable (Elsewhere p q l) :=
  inferInstanceAs (Decidable (_ ∨ _))

theorem elsewhere_iff : Elsewhere p q l ↔
    ∃ y rest, l.Perm (y :: rest) ∧ q y = true ∧ ∃ x ∈ rest, p x = true := by
  constructor
  · rintro (h | h)
    · rcases before_iff.mp h with ⟨l₁, y, l₂, rfl, hy, x, hx, hpx⟩
      exact ⟨y, l₁ ++ l₂, List.perm_middle, hy, x, List.mem_append_left l₂ hx, hpx⟩
    · rcases before_iff.mp h with ⟨l₁, x, l₂, rfl, hx, y, hy, hqy⟩
      rcases List.append_of_mem hy with ⟨s, t, rfl⟩
      refine ⟨y, s ++ (t ++ x :: l₂), ?_, hqy, x, by simp, hx⟩
      rw [List.append_assoc]
      exact List.perm_middle
  · rintro ⟨y, rest, hperm, hy, x, hx, hpx⟩
    by_contra hnone
    rw [Elsewhere, not_or, Before, Before, not_not, not_not, ← List.pairwise_and_iff] at hnone
    have hall := hperm.pairwise hnone fun h => ⟨fun hqp => h.2 hqp.symm, fun hpq => h.1 hpq.symm⟩
    exact ((List.pairwise_cons.mp hall).1 x hx).2 ⟨hy, hpx⟩

/-- Different places, in any order. -/
theorem Elsewhere.perm (hperm : l.Perm l') (h : Elsewhere p q l) : Elsewhere p q l' := by
  rcases elsewhere_iff.mp h with ⟨y, rest, hrest, hy⟩
  exact elsewhere_iff.mpr ⟨y, rest, hperm.symm.trans hrest, hy⟩

/-- Two elements of one kind, in any order. -/
theorem Before.perm (hperm : l.Perm l') (h : Before p p l) : Before p p l' :=
  (Elsewhere.perm hperm (Or.inl h)).elim id id

/-! ### Orders -/

/-- The elements of both kinds, if there is one, behind those that are only of the second
    kind, and all others behind it. -/
theorem not_before_arranged {t : List α}
    (hboth : ¬ Before (fun x => p x && q x) (fun x => p x && q x) l) (ht : ∀ y ∈ t, q y = false) :
    ¬ Before p q (l.filter (fun x => q x && !p x) ++ (l.filter (fun x => q x && p x) ++ t)) := by
  have hnone : ∀ x ∈ l.filter (fun x => q x && !p x), p x = false := by simp
  rw [before_append, before_append, not_or, not_or, not_or, not_or]
  refine ⟨fun h => ?_, ⟨fun h => ?_, fun h => ?_, ?_⟩, ?_⟩
  · rcases before_iff.mp h with ⟨l₁, y, l₂, heq, -, x, hx, hpx⟩
    rw [hnone x (heq ▸ List.mem_append_left _ hx)] at hpx
    cases hpx
  · have hmem : ∀ x ∈ l.filter (fun x => q x && p x), (p x && q x) = true := fun x hx => by
      rw [Bool.and_comm]
      exact (List.mem_filter.mp hx).2
    have hin := h.imp (fun x hx _ => hmem x hx) fun x hx _ => hmem x hx
    exact hboth fun hall => hin (hall.sublist List.filter_sublist)
  · rcases before_iff.mp h with ⟨l₁, y, l₂, rfl, hy, -⟩
    rw [ht y (by simp)] at hy
    cases hy
  · rintro ⟨-, y, hy, hqy⟩
    rw [ht y hy] at hqy
    cases hqy
  · rintro ⟨⟨x, hx, hpx⟩, -⟩
    rw [hnone x hx] at hpx
    cases hpx

theorem arranged_perm (p q : α → Bool) (l : List α) :
    l.Perm (l.filter (fun x => q x && !p x) ++
      (l.filter (fun x => q x && p x) ++ l.filter (fun x => !q x))) := by
  have hq := (List.filter_append_perm q l).symm
  have hp := (List.filter_append_perm p (l.filter q)).symm
  rw [List.filter_filter, List.filter_filter] at hp
  refine hq.trans ?_
  rw [← List.append_assoc]
  refine List.Perm.append_right _ (hp.trans (List.perm_append_comm.trans ?_))
  simp only [Bool.and_comm]
  exact List.Perm.refl _

/-- Unless two elements are of both kinds, no element has to stand before another. -/
theorem exists_perm_not_before (hboth : ¬ Before (fun x => p x && q x) (fun x => p x && q x) l) :
    ∃ l', l.Perm l' ∧ ¬ Before p q l' :=
  ⟨_, arranged_perm p q l, not_before_arranged hboth (by simp)⟩

/-- The same with an element of a third kind behind one of the first. -/
theorem exists_perm_before (hboth : ¬ Before (fun x => p x && q x) (fun x => p x && q x) l)
    (helse : Elsewhere p (fun x => r x && !q x) l) :
    ∃ l', l.Perm l' ∧ ¬ Before p q l' ∧ Before p r l' := by
  rcases elsewhere_iff.mp helse with ⟨y, rest, hperm, hy, x, hx, hpx⟩
  rw [Bool.and_eq_true, Bool.not_eq_true'] at hy
  have hrest : ¬ Before (fun x => p x && q x) (fun x => p x && q x) rest := by
    refine fun h => hboth (Before.perm hperm.symm ?_)
    exact before_append (l := [y]).mpr (Or.inr (Or.inl h))
  have hmem := (arranged_perm p q rest).mem_iff.mp hx
  refine ⟨_, hperm.trans ((arranged_perm p q rest).cons y |>.trans
    (List.perm_append_singleton y _).symm), ?_, ?_⟩
  · rw [List.append_assoc, List.append_assoc]
    refine not_before_arranged hrest fun z hz => ?_
    rcases List.mem_append.mp hz with hz | hz
    · simpa using (List.mem_filter.mp hz).2
    · rw [List.mem_singleton.mp hz]
      exact hy.2
  · exact before_append.mpr (Or.inr (Or.inr ⟨⟨x, hmem, hpx⟩, y, List.mem_singleton_self y, hy.1⟩))

/-! ### Contests -/

/-- Two sides that reach levels. -/
structure Contest (α : Type) where
  /-- The levels that count are up to this one. -/
  bound : ℕ
  /-- An element is as high as a level. -/
  high : ℕ → α → Bool
  /-- The elements of the side that is judged, and of the other. -/
  ours : α → Bool
  theirs : α → Bool
  /-- The levels that the sides reach in any order. -/
  we : ℕ → Bool
  they : ℕ → Bool
  /-- What is as high as a level is as high as those below. -/
  mono : ∀ {m n x}, m ≤ n → high n x = true → high m x = true

namespace Contest

variable (C : Contest α)

/-- Every level that they reach is one that we reach, by an element behind a high one if not in
    any order. -/
def Wins (l : List α) : Prop :=
  ∀ n ≤ C.bound, C.they n = true ∨ Before (C.high n) C.theirs l →
    C.we n = true ∨ Before (C.high n) C.ours l

/-- What they can reach, two of our elements that are high reach in any order. -/
def Always (l : List α) : Prop :=
  ∀ n ≤ C.bound, C.they n = true ∨ Elsewhere (C.high n) (fun x => C.theirs x && !C.ours x) l →
    C.we n = true ∨ Before (fun x => C.high n x && C.ours x) (fun x => C.high n x && C.ours x) l

/-- There is a level that they reach in any order and we in none. -/
def Never (l : List α) : Prop :=
  ∃ n ≤ C.bound, C.we n = false ∧ (C.they n = true ∧ ¬ Elsewhere (C.high n) C.ours l ∨
    (∀ x ∈ l, C.ours x = false) ∧
      Before (fun x => C.high n x && C.theirs x) (fun x => C.high n x && C.theirs x) l)

instance : Decidable (C.Always l) :=
  inferInstanceAs (Decidable (∀ n ≤ C.bound, _))

instance : Decidable (C.Never l) :=
  inferInstanceAs (Decidable (∃ n ≤ C.bound, _))

/-- An element behind a high one is there if two elements are high and of a side. -/
theorem before_of_two {n : ℕ} {k : α → Bool} (hperm : l.Perm l')
    (h : Before (fun x => C.high n x && k x) (fun x => C.high n x && k x) l) :
    Before (C.high n) k l' :=
  (h.perm hperm).imp (fun _ _ hx => (Bool.and_eq_true_iff.mp hx).1)
    fun _ _ hx => (Bool.and_eq_true_iff.mp hx).2

/-- We win in every order. -/
theorem always_iff (l : List α) : (∀ l', l.Perm l' → C.Wins l') ↔ C.Always l := by
  constructor
  · intro h n hn hreach
    by_contra hnot
    rw [not_or] at hnot
    -- There is an order in which none of ours is behind a high one, and they reach the level.
    have horder : ∃ l', l.Perm l' ∧ ¬ Before (C.high n) C.ours l' ∧
        (C.they n = true ∨ Before (C.high n) C.theirs l') := by
      rcases hreach with hthey | helse
      · rcases exists_perm_not_before hnot.2 with ⟨l', hperm, hnone⟩
        exact ⟨l', hperm, hnone, Or.inl hthey⟩
      · rcases exists_perm_before hnot.2 helse with ⟨l', hperm, hnone, hbefore⟩
        exact ⟨l', hperm, hnone, Or.inr hbefore⟩
    rcases horder with ⟨l', hperm, hnone, hthey⟩
    exact (h l' hperm n hn hthey).elim hnot.1 hnone
  · intro h l' hperm n hn hreach
    rcases hreach with hthey | hbefore
    · exact (h n hn (Or.inl hthey)).imp id (C.before_of_two hperm)
    · rcases before_iff.mp hbefore with ⟨l₁, y, l₂, rfl, hy, hx⟩
      by_cases hours : C.ours y = true
      · exact Or.inr (before_iff.mpr ⟨l₁, y, l₂, rfl, hours, hx⟩)
      · have helse : Elsewhere (C.high n) (fun x => C.theirs x && !C.ours x) (l₁ ++ y :: l₂) :=
          Or.inl (before_iff.mpr ⟨l₁, y, l₂, rfl, by simp [hy, hours], hx⟩)
        exact (h n hn (Or.inr (helse.perm hperm.symm))).imp id (C.before_of_two hperm)

/-- With one of our elements at the end, whatever is behind a high element is no better. -/
theorem wins_of_last {y : α} {rest : List α} (hy : C.ours y = true)
    (h : ∀ n ≤ C.bound, C.they n = true → C.we n = true ∨ ∃ x ∈ rest, C.high n x = true) :
    C.Wins (rest ++ [y]) := by
  have hlast : ∀ n, (∃ x ∈ rest, C.high n x = true) → Before (C.high n) C.ours (rest ++ [y]) :=
    fun n hx => before_iff.mpr ⟨rest, y, [], rfl, hy, hx⟩
  intro n hn hreach
  rcases hreach with hthey | hbefore
  · exact (h n hn hthey).imp id (hlast n)
  · right
    rcases before_append.mp hbefore with hfirst | hsingle | ⟨hx, -⟩
    · rcases before_iff.mp hfirst with ⟨l₁, z, l₂, rfl, -, x, hx, hhigh⟩
      exact hlast n ⟨x, List.mem_append_left _ hx, hhigh⟩
    · exact absurd (List.pairwise_singleton _ y) hsingle
    · exact hlast n hx

/-- Without any of ours there is an order for the lowest level that we do not reach: they are kept
    from it, and so from all above. -/
theorem exists_wins_of_none {l : List α} (hthey : ∀ n ≤ C.bound, C.we n = false → C.they n = false)
    (hbefore : ∀ n ≤ C.bound, C.we n = false →
      ¬ Before (fun x => C.high n x && C.theirs x) (fun x => C.high n x && C.theirs x) l) :
    ∃ l', l.Perm l' ∧ C.Wins l' := by
  by_cases hex : ∃ n, n ≤ C.bound ∧ C.we n = false
  · have hlow := Nat.find_spec hex
    rcases exists_perm_not_before (hbefore _ hlow.1 hlow.2) with ⟨l', hperm, hnone⟩
    refine ⟨l', hperm, fun n hn hreach => ?_⟩
    by_contra hlost
    rw [not_or, Bool.not_eq_true] at hlost
    have hle := Nat.find_min' hex ⟨hn, hlost.1⟩
    rw [hthey n hn hlost.1] at hreach
    rcases hreach with hreach | hreach
    · cases hreach
    · exact hnone (hreach.imp (fun _ _ => C.mono hle) fun _ _ hx => hx)
  · refine ⟨l, List.Perm.refl l, fun n hn _ => Or.inl ?_⟩
    by_contra hwe
    exact hex ⟨n, hn, Bool.eq_false_iff.mpr hwe⟩

/-- With one of ours there is an order for the highest level that only they reach in any order: the
    one of ours comes last, behind an element that is as high. -/
theorem exists_wins_of_ours {l : List α} {y : α} (hy : y ∈ l) (hours : C.ours y = true)
    (h : ∀ n ≤ C.bound, C.they n = true → C.we n = false → Elsewhere (C.high n) C.ours l) :
    ∃ l', l.Perm l' ∧ C.Wins l' := by
  by_cases hex : ∃ n ≤ C.bound, C.they n = true ∧ C.we n = false
  · rcases hex with ⟨n, hn, hlost⟩
    have hspec :=
      Nat.findGreatest_spec (P := fun n => C.they n = true ∧ C.we n = false) hn hlost
    rcases elsewhere_iff.mp (h _ (Nat.findGreatest_le _) hspec.1 hspec.2) with
      ⟨z, rest, hperm, hz, x, hx, hhigh⟩
    refine ⟨rest ++ [z], hperm.trans (List.perm_append_singleton z rest).symm,
      C.wins_of_last hz fun m hm hthey => ?_⟩
    by_cases hwe : C.we m = true
    · exact Or.inl hwe
    · exact Or.inr ⟨x, hx,
        C.mono (Nat.le_findGreatest hm ⟨hthey, Bool.eq_false_iff.mpr hwe⟩) hhigh⟩
  · rcases List.append_of_mem hy with ⟨s, t, rfl⟩
    refine ⟨s ++ t ++ [y], List.perm_middle.trans (List.perm_append_singleton y _).symm,
      C.wins_of_last hours fun m hm hthey => Or.inl ?_⟩
    by_contra hwe
    exact hex ⟨m, hm, hthey, Bool.eq_false_iff.mpr hwe⟩

/-- We win in no order. -/
theorem never_iff (l : List α) : (∀ l', l.Perm l' → ¬ C.Wins l') ↔ C.Never l := by
  constructor
  · intro h
    by_contra hnever
    have helse : ∀ n ≤ C.bound, C.they n = true → C.we n = false →
        Elsewhere (C.high n) C.ours l := fun n hn hthey hwe => by
      by_contra hnone
      exact hnever ⟨n, hn, hwe, Or.inl ⟨hthey, hnone⟩⟩
    have hwins : ∃ l', l.Perm l' ∧ C.Wins l' := by
      by_cases hours : ∀ x ∈ l, C.ours x = false
      · refine C.exists_wins_of_none (fun n hn hwe => Bool.eq_false_iff.mpr fun hthey => ?_)
          fun n hn hwe hbefore => hnever ⟨n, hn, hwe, Or.inr ⟨hours, hbefore⟩⟩
        rcases elsewhere_iff.mp (helse n hn hthey hwe) with ⟨y, rest, hrest, hy, -⟩
        rw [hours y (hrest.mem_iff.mpr List.mem_cons_self)] at hy
        cases hy
      · push Not at hours
        rcases hours with ⟨y, hy, hours⟩
        exact C.exists_wins_of_ours hy (Bool.ne_false_iff.mp hours) helse
    rcases hwins with ⟨l', hperm, hwins⟩
    exact h l' hperm hwins
  · rintro ⟨n, hn, hwe, ⟨hthey, hnone⟩ | ⟨hours, hbefore⟩⟩ l' hperm hwins
    · rcases hwins n hn (Or.inl hthey) with h | h
      · rw [hwe] at h
        cases h
      · exact hnone (Elsewhere.perm hperm.symm (Or.inl h))
    · rcases hwins n hn (Or.inr (C.before_of_two hperm hbefore)) with h | h
      · rw [hwe] at h
        cases h
      · rcases before_iff.mp h with ⟨l₁, y, l₂, rfl, hy, -⟩
        rw [hours y (hperm.mem_iff.mpr (by simp))] at hy
        cases hy

end Contest

end Tautq
