import Mathlib.Logic.Relation
import Mathlib.Data.List.Basic

/-!
# Paths of Elementary Moves

A handler of an event-driven program is a sequence of elementary moves, and
what every move keeps, the handler keeps. `Path R` is the reflexive and
transitive closure of the move relation, with the rules that follow a
program's own structure: sequencing, and loops written as folds.

A loop body may rely on a property of the state, so the fold rule carries one
and asks the body to keep it.

## Main definitions

* `Path`: Any number of moves.

## Theorems

* `Path.keeps`: What every move keeps, a path keeps.
* `Path.foldl`: A loop whose body is a path is a path.
-/

namespace Tautq

variable {σ α : Type}

/-- Any number of moves. -/
abbrev Path (R : σ → σ → Prop) : σ → σ → Prop :=
  Relation.ReflTransGen R

namespace Path

variable {R : σ → σ → Prop}

theorem keeps {P : σ → Prop} (hR : ∀ s s', R s s' → P s → P s') {s t : σ} (h : Path R s t)
    (hs : P s) : P t := by
  induction h with
  | refl => exact hs
  | tail _ hmove ih => exact hR _ _ hmove ih

/-- A loop is a path if its body is one from every state with a property that
    the body keeps. -/
theorem foldl {P : σ → Prop} (f : σ → α → σ) (xs : List α)
    (hf : ∀ s, ∀ x ∈ xs, P s → Path R s (f s x) ∧ P (f s x)) (s : σ) (hs : P s) :
    Path R s (xs.foldl f s) ∧ P (xs.foldl f s) := by
  induction xs generalizing s with
  | nil => exact ⟨.refl, hs⟩
  | cons x xs ih =>
    rcases hf s x List.mem_cons_self hs with ⟨hfirst, hP⟩
    rcases ih (fun s' y hy => hf s' y (List.mem_cons_of_mem _ hy)) (f s x) hP with
      ⟨hrest, hP'⟩
    exact ⟨hfirst.trans hrest, hP'⟩

end Path

end Tautq
