import Mathlib.Data.List.Infix
import Mathlib.Order.Basic

/-!
# Replayed Histories

A state that is the fold of an append-only log has a history: the states the
prefixes of the log fold to. A fact about a visited state is never lost, so an
argument can rest on what a party held at some time without saying when.

The rule that carries fencing arguments is `agree_snoc`. Where a rank
never goes down along the log, and an entry that leaves the rank where it was
leaves an attribute where it was, any two visited states of one rank have one
attribute.

## Main definitions

* `Visited`: The states the prefixes of a log fold to.

## Theorems

* `Visited.snoc`: Appending an entry visits one more state.
* `Visited.mono`: A longer log has visited more.
* `Visited.agree_snoc`: Agreement at equal rank is kept by an entry that
  respects it.
-/

namespace Tautq

variable {σ α : Type} (f : σ → α → σ) (s₀ : σ)

/-- The states the prefixes of a log fold to. -/
def Visited (log : List α) (s : σ) : Prop :=
  ∃ w, w <+: log ∧ s = w.foldl f s₀

namespace Visited

variable {f s₀} {log log' : List α} {s : σ}

theorem last : Visited f s₀ log (log.foldl f s₀) :=
  ⟨log, List.prefix_rfl, rfl⟩

theorem mono (hp : log <+: log') (h : Visited f s₀ log s) : Visited f s₀ log' s := by
  rcases h with ⟨w, hw, hs⟩
  exact ⟨w, hw.trans hp, hs⟩

theorem snoc (a : α) :
    Visited f s₀ (log ++ [a]) s ↔ Visited f s₀ log s ∨ s = f (log.foldl f s₀) a := by
  constructor
  · rintro ⟨w, hw, hs⟩
    rcases List.prefix_concat_iff.mp hw with hlast | hold
    · right
      rw [hs, hlast, List.foldl_append, List.foldl_cons, List.foldl_nil]
    · exact Or.inl ⟨w, hold, hs⟩
  · rintro (h | h)
    · exact h.mono (List.prefix_append log [a])
    · refine ⟨log ++ [a], List.prefix_rfl, ?_⟩
      rw [h, List.foldl_append, List.foldl_cons, List.foldl_nil]

/-- Agreement at equal rank survives one more entry: the rank of no visited
    state exceeds the current one, and an entry that keeps the rank keeps the
    attribute. `none` stands for a state without rank. -/
theorem agree_snoc {κ : Type} (rank : σ → Option Nat) (attr : σ → κ) (a : α)
    (hagree : ∀ s s', Visited f s₀ log s → Visited f s₀ log s' → ∀ e, rank s = some e →
      rank s' = some e → attr s = attr s')
    (hbound : ∀ s, Visited f s₀ log s → ∀ e, rank s = some e →
      ∃ e', rank (log.foldl f s₀) = some e' ∧ e ≤ e')
    (hnext : ∀ e, rank (log.foldl f s₀) = some e →
      ∃ e', rank (f (log.foldl f s₀) a) = some e' ∧ e ≤ e' ∧
        (e = e' → attr (f (log.foldl f s₀) a) = attr (log.foldl f s₀))) :
    ∀ s s', Visited f s₀ (log ++ [a]) s → Visited f s₀ (log ++ [a]) s' → ∀ e, rank s = some e →
      rank s' = some e → attr s = attr s' := by
  -- An old state at the new state's rank pins the current rank between the two.
  have hnew : ∀ s, Visited f s₀ log s → ∀ e, rank s = some e →
      rank (f (log.foldl f s₀) a) = some e → attr s = attr (f (log.foldl f s₀) a) := by
    intro s hs e he he'
    rcases hbound s hs e he with ⟨cur, hcur, hle⟩
    rcases hnext cur hcur with ⟨nxt, hnxt, hle', hattr⟩
    have hnxte : nxt = e := by
      rw [hnxt] at he'
      exact Option.some.inj he'
    have hcure : cur = e := by omega
    rw [hattr (by omega)]
    exact hagree s _ hs .last e he (hcure ▸ hcur)
  intro s s' hs hs' e he he'
  rcases (snoc a).mp hs with hold | hlast <;> rcases (snoc a).mp hs' with hold' | hlast'
  · exact hagree s s' hold hold' e he he'
  · rw [hlast'] at he' ⊢
    exact hnew s hold e he he'
  · rw [hlast] at he ⊢
    exact (hnew s' hold' e he' he).symm
  · rw [hlast, hlast']

end Visited

end Tautq
