import Mathlib.Data.Option.Basic

/-!
# Guarded Runs

Runs of a partial step function, and invariants of the runs whose steps all
meet a condition on the state before them.

A run is a list of labels; it is stuck where the step function is undefined.
`Meets` asks a condition of every step that is taken. The invariant rule is
proved once, in the form safety arguments use it: what holds at the start and
is kept by every step that meets the condition holds at the end of every run
that meets it.

## Main definitions

* `exec`: Run a list of labels.
* `Meets`: Every step of a run meets a condition.

## Theorems

* `exec_append`: A run of two lists is one run after the other.
* `meets_append`: And meets a condition when both parts do.
* `meets_mono`: A weaker condition is met as well.
* `meets_of_forall`, `meets_and`: Conditions on the labels alone, and two conditions
  at once.
* `exec_invariant`: The invariant rule.
* `exec_relation`: The same for a relation between the start and the end.
-/

namespace Tautq

namespace Run

variable {σ α : Type} (step : σ → α → Option σ)

/-- Run a list of labels, or `none` if some step is undefined. -/
def exec (s : σ) : List α → Option σ
  | [] => some s
  | a :: as => (step s a).bind (fun s' => exec s' as)

/-- Whether every step taken along a run meets a condition on the state before
    it. -/
def Meets (K : σ → α → Prop) (s : σ) : List α → Prop
  | [] => True
  | a :: as => K s a ∧ ∀ s' ∈ step s a, Meets K s' as

instance decidableMeets (K : σ → α → Prop) [∀ s a, Decidable (K s a)] :
    ∀ (s : σ) (as : List α), Decidable (Meets step K s as)
  | _, [] => .isTrue trivial
  | s, a :: as =>
    match h : step s a with
    | none => decidable_of_iff (K s a) ⟨fun hk => ⟨hk, by simp [h]⟩, fun hm => hm.1⟩
    | some s' =>
      have := decidableMeets K s' as
      decidable_of_iff (K s a ∧ Meets step K s' as)
        ⟨fun hk => ⟨hk.1, by simpa [h] using hk.2⟩, fun hm => ⟨hm.1, hm.2 s' (by simp [h])⟩⟩

variable {step}

theorem exec_append (s t : σ) (as bs : List α) (h : exec step s as = some t) :
    exec step s (as ++ bs) = exec step t bs := by
  induction as generalizing s with
  | nil =>
    simp only [exec, Option.some.injEq] at h
    rw [List.nil_append, h]
  | cons a as ih =>
    simp only [exec, Option.bind_eq_some_iff] at h
    rcases h with ⟨s', hs', ht⟩
    simp only [List.cons_append, exec, hs', Option.bind_some]
    exact ih s' ht

theorem meets_append (K : σ → α → Prop) (s t : σ) (as bs : List α)
    (h : exec step s as = some t) :
    Meets step K s (as ++ bs) ↔ Meets step K s as ∧ Meets step K t bs := by
  induction as generalizing s with
  | nil =>
    simp only [exec, Option.some.injEq] at h
    simp only [List.nil_append, Meets, true_and, h]
  | cons a as ih =>
    simp only [exec, Option.bind_eq_some_iff] at h
    rcases h with ⟨s', hs', ht⟩
    simp only [List.cons_append, Meets, hs', Option.mem_def, Option.some.injEq, forall_eq',
      ih s' ht, and_assoc]

theorem meets_mono {K K' : σ → α → Prop} (hKK : ∀ s a, K s a → K' s a) (s : σ) (as : List α)
    (h : Meets step K s as) : Meets step K' s as := by
  induction as generalizing s with
  | nil => trivial
  | cons a as ih => exact ⟨hKK s a h.1, fun s' hs' => ih s' (h.2 s' hs')⟩

/-- A condition that no label of a run can break is met. -/
theorem meets_of_forall {K : σ → α → Prop} (s : σ) (as : List α) (h : ∀ a ∈ as, ∀ s, K s a) :
    Meets step K s as := by
  induction as generalizing s with
  | nil => trivial
  | cons a as ih =>
    exact ⟨h a List.mem_cons_self s,
      fun s' _ => ih s' (fun b hb => h b (List.mem_cons_of_mem a hb))⟩

theorem meets_and {K K' : σ → α → Prop} (s : σ) (as : List α) (h : Meets step K s as)
    (h' : Meets step K' s as) : Meets step (fun s a => K s a ∧ K' s a) s as := by
  induction as generalizing s with
  | nil => trivial
  | cons a as ih => exact ⟨⟨h.1, h'.1⟩, fun s' hs' => ih s' (h.2 s' hs') (h'.2 s' hs')⟩

/-- A relation that is reflexive and extended by every step that meets the
    condition links the start and the end of every run that meets it. -/
theorem exec_relation {K : σ → α → Prop} {P : σ → σ → Prop} (s₀ : σ) (hrefl : P s₀ s₀)
    (hstep : ∀ s a s', P s₀ s → K s a → step s a = some s' → P s₀ s')
    (as : List α) (s : σ) (h : exec step s₀ as = some s) (hK : Meets step K s₀ as) : P s₀ s := by
  -- The run is peeled from the front, so the state it has reached is generalised.
  suffices key : ∀ (as : List α) (s₁ : σ), P s₀ s₁ → exec step s₁ as = some s →
      Meets step K s₁ as → P s₀ s from key as s₀ hrefl h hK
  intro as
  induction as with
  | nil =>
    intro s₁ hs₁ h _
    simp only [exec, Option.some.injEq] at h
    rw [← h]
    exact hs₁
  | cons a as ih =>
    intro s₁ hs₁ h hK
    simp only [exec, Option.bind_eq_some_iff] at h
    rcases h with ⟨s', hs', ht⟩
    exact ih s' (hstep s₁ a s' hs₁ hK.1 hs') ht (hK.2 s' hs')

/-- What holds at the start and is kept by every step that meets the condition
    holds at the end of every run that meets it. -/
theorem exec_invariant {K : σ → α → Prop} {Inv : σ → Prop} (s₀ : σ) (hinit : Inv s₀)
    (hstep : ∀ s a s', Inv s → K s a → step s a = some s' → Inv s')
    (as : List α) (s : σ) (h : exec step s₀ as = some s) (hK : Meets step K s₀ as) : Inv s :=
  exec_relation (P := fun _ s => Inv s) s₀ hinit hstep as s h hK

end Run

end Tautq
