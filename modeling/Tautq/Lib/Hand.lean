import Tautq.Lib.Path

/-!
# Moves With Something in Hand

Programs that move obligations about: a handler takes something up, holds it while it does other
work, and puts it down elsewhere. A state is then a state of the program together with a stack of
what is in hand, and a piece of code turns one stack into another whatever lies below it.

A move `R s xs t ys` takes `xs` from the top of the stack and leaves `ys` there. `Turns R s xs t ys`
says the same of code that makes any number of moves. What lies below is quantified over, so the
judgement composes and has a frame rule, and a loop that deals with one item a round deals with all
of them.

## Main definitions

* `Framed`: A move, with something below.
* `Turns`: Code that turns what is on top of the stack into something else.

## Theorems

* `Turns.trans`, `Turns.append`: Sequencing, and the frame rule.
* `Turns.loop`: A loop that clears one item in every round clears them all.
* `Turns.keeps`: What every move keeps, code keeps.
-/

namespace Tautq

variable {σ ι α : Type} {R : σ → List ι → σ → List ι → Prop}

/-- A move, with something below. -/
inductive Framed (R : σ → List ι → σ → List ι → Prop) : σ × List ι → σ × List ι → Prop where
  | frame {s t : σ} {xs ys : List ι} (below : List ι) (move : R s xs t ys) :
      Framed R (s, xs ++ below) (t, ys ++ below)

/-- From `s` with `xs` on top of the stack to `t` with `ys` in their place. -/
def Turns (R : σ → List ι → σ → List ι → Prop) (s : σ) (xs : List ι) (t : σ) (ys : List ι) : Prop :=
  ∀ h, Path (Framed R) (s, xs ++ h) (t, ys ++ h)

namespace Turns

variable {s t u : σ} {xs ys zs : List ι}

theorem refl (s : σ) (xs : List ι) : Turns R s xs s xs :=
  fun _ => .refl

theorem of_move (h : R s xs t ys) : Turns R s xs t ys :=
  fun below => .single (.frame below h)

theorem trans (h : Turns R s xs t ys) (h' : Turns R t ys u zs) : Turns R s xs u zs :=
  fun below => (h below).trans (h' below)

/-- What lies below stays where it is. -/
theorem frame (h : Turns R s xs t ys) (zs : List ι) : Turns R s (xs ++ zs) t (ys ++ zs) := by
  intro below
  rw [List.append_assoc, List.append_assoc]
  exact h (zs ++ below)

/-- One thing after the other: the first deals with the top, the second with what is below. -/
theorem append (h : Turns R s xs t []) (h' : Turns R t ys u zs) : Turns R s (xs ++ ys) u zs :=
  (h.frame ys).trans h'

/-- A loop whose rounds deal with one element's items each, from every state with a property
    that the rounds keep. -/
theorem loop {P : σ → Prop} (f : σ → α → σ) (g : α → List ι) (l : List α)
    (hf : ∀ s, ∀ x ∈ l, P s → Turns R s (g x) (f s x) [] ∧ P (f s x)) (s : σ) (hs : P s) :
    Turns R s (l.flatMap g) (l.foldl f s) [] ∧ P (l.foldl f s) := by
  induction l generalizing s with
  | nil => exact ⟨.refl s [], hs⟩
  | cons x l ih =>
    rcases hf s x List.mem_cons_self hs with ⟨hfirst, hP⟩
    rcases ih (fun s' y hy => hf s' y (List.mem_cons_of_mem x hy)) (f s x) hP with ⟨hrest, hP'⟩
    exact ⟨hfirst.append hrest, hP'⟩

/-- A loop whose rounds have nothing in hand. -/
theorem rounds (f : σ → α → σ) (l : List α) (hf : ∀ s x, Turns R s [] (f s x) []) (s : σ) :
    Turns R s [] (l.foldl f s) [] := by
  induction l generalizing s with
  | nil => exact .refl s []
  | cons x l ih => exact (hf s x).trans (ih (f s x))

/-- What every move keeps, code keeps. -/
theorem keeps {P : σ × List ι → Prop}
    (hP : ∀ s xs t ys, R s xs t ys → ∀ h, P (s, xs ++ h) → P (t, ys ++ h)) (h : Turns R s xs t [])
    (hs : P (s, xs)) : P (t, []) := by
  have hpath := h []
  rw [List.append_nil, List.append_nil] at hpath
  refine Path.keeps (fun x y hmove hx => ?_) hpath hs
  cases hmove with
  | frame below move => exact hP _ _ _ _ move below hx

end Turns

end Tautq
