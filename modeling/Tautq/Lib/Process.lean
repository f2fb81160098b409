/-!
# Processes That Can Be Cut Short

A program that makes system calls on some world. Every call has a fate: it can do
its work, report a failure and do nothing, or be the point where the process is
killed. The fates are a script the process reads from; a call past its end does
its work.

`Ends` is the judgement programs are reasoned about with. It names two
postconditions: one for a process that returns, and one for the worlds it can be
killed in. The second one has to hold before every call, so a program's proof
says what is left behind wherever it is cut.

## Main definitions

* `Fate`: What becomes of a system call.
* `Proc`: A process.
* `Proc.call`: A system call.
* `Proc.Ends`: Where a process can end up, if the fates are as given.

## Theorems

* `Proc.Ends.pure`, `Proc.Ends.bind`, `Proc.Ends.ite`, `Proc.Ends.call`: The rules.
* `Proc.Ends.of_call`: All that can become of a call.
* `Proc.Ends.seq`: `bind` with different conditions for a killed process.
* `Proc.Ends.mono`: Weaker postconditions hold as well.
-/

namespace Tautq

/-- What becomes of a system call. A write can also be accepted in part, or be
    interrupted before it did anything; for other calls these are no different from
    `ok`. -/
inductive Fate where
  | ok
  | fail
  | kill
  | part (n : Nat)
  | interrupted
deriving DecidableEq, Repr, Inhabited

/-- A process on a world: what it returns, or nothing if it was killed, with the
    world it leaves and the fates it did not use. -/
def Proc (σ α : Type) : Type :=
  σ → List Fate → Option α × σ × List Fate

namespace Proc

variable {σ α β : Type}

instance : Monad (Proc σ) where
  pure a := fun s fs => (some a, s, fs)
  bind x f := fun s fs =>
    match x s fs with
    | (some a, s', fs') => f a s' fs'
    | (none, s', fs') => (none, s', fs')

/-- A system call, with what it returns when it fails. -/
def call (f : σ → α × σ) (err : α) : Proc σ α := fun s fs =>
  match fs with
  | [] => (some (f s).1, (f s).2, [])
  | .kill :: fs => (none, s, fs)
  | .fail :: fs => (some err, s, fs)
  | .ok :: fs | .part _ :: fs | .interrupted :: fs => (some (f s).1, (f s).2, fs)

/-- A postcondition for what is returned, and one for a killed process. -/
def Post (Q : α → σ → Prop) (R : σ → Prop) : Option α → σ → Prop
  | some a, s => Q a s
  | none, s => R s

/-- A process that returns does so with `Q`, and one that is killed leaves `R`,
    whatever script of the fates `F` it is run with. -/
def Ends (F : Fate → Prop) (x : Proc σ α) (s : σ) (Q : α → σ → Prop) (R : σ → Prop) : Prop :=
  ∀ fs, (∀ f ∈ fs, F f) → ∀ o s' fs', x s fs = (o, s', fs') →
    (∀ f ∈ fs', F f) ∧ Post Q R o s'

namespace Ends

variable {F : Fate → Prop} {s : σ} {Q : α → σ → Prop} {R : σ → Prop}

theorem pure {a : α} (h : Q a s) : Ends F (Pure.pure a : Proc σ α) s Q R := by
  intro fs hfs o s' fs' hrun
  cases hrun
  exact ⟨hfs, h⟩

theorem bind {x : Proc σ α} {f : α → Proc σ β} {Q' : β → σ → Prop} (hx : Ends F x s Q R)
    (hf : ∀ a s', Q a s' → Ends F (f a) s' Q' R) : Ends F (x >>= f) s Q' R := by
  intro fs hfs o s' fs' hrun
  simp only [Bind.bind] at hrun
  cases hmid : x s fs with
  | mk o₁ rest =>
    rcases rest with ⟨s₁, fs₁⟩
    rcases hx fs hfs o₁ s₁ fs₁ hmid with ⟨hfs₁, hpost⟩
    rw [hmid] at hrun
    cases o₁ with
    | none =>
      cases hrun
      exact ⟨hfs₁, hpost⟩
    | some a => exact hf a s₁ hpost fs₁ hfs₁ o s' fs' hrun

theorem ite {c : Prop} [Decidable c] {x y : Proc σ α} (hx : c → Ends F x s Q R)
    (hy : ¬ c → Ends F y s Q R) : Ends F (if c then x else y) s Q R := by
  by_cases h : c
  · rw [if_pos h]
    exact hx h
  · rw [if_neg h]
    exact hy h

theorem call {f : σ → α × σ} {err : α} (hkill : F .kill → R s) (hfail : F .fail → Q err s)
    (hok : Q (f s).1 (f s).2) : Ends F (Proc.call f err) s Q R := by
  intro fs hfs o s' fs' hrun
  cases fs with
  | nil =>
    cases hrun
    exact ⟨hfs, hok⟩
  | cons g fs =>
    have hfs₁ := fun f hf => hfs f (List.mem_cons_of_mem g hf)
    have hg := hfs g List.mem_cons_self
    cases g with
    | ok | part | interrupted =>
      cases hrun
      exact ⟨hfs₁, hok⟩
    | kill =>
      cases hrun
      exact ⟨hfs₁, hkill hg⟩
    | fail =>
      cases hrun
      exact ⟨hfs₁, hfail hg⟩

/-- All that can become of a call. -/
theorem of_call (f : σ → α × σ) (err : α) : Ends F (Proc.call f err) s
    (fun a s' => (a = (f s).1 ∧ s' = (f s).2) ∨ (a = err ∧ s' = s ∧ F .fail))
    (fun s' => s' = s ∧ F .kill) :=
  .call (fun hkill => ⟨rfl, hkill⟩) (fun hfail => .inr ⟨rfl, rfl, hfail⟩) (.inl ⟨rfl, rfl⟩)

theorem mono {x : Proc σ α} {Q' : α → σ → Prop} {R' : σ → Prop} (h : Ends F x s Q R)
    (hQ : ∀ a s', Q a s' → Q' a s') (hR : ∀ s', R s' → R' s') : Ends F x s Q' R' := by
  intro fs hfs o s' fs' hrun
  rcases h fs hfs o s' fs' hrun with ⟨hfs', hpost⟩
  cases o with
  | none => exact ⟨hfs', hR s' hpost⟩
  | some a => exact ⟨hfs', hQ a s' hpost⟩

/-- Nothing is said of what a process does. -/
theorem any (x : Proc σ α) (s : σ) :
    Ends (fun _ => True) x s (fun _ _ => True) (fun _ => True) := by
  intro fs _ o s' fs' _
  cases o with
  | none => exact ⟨fun _ _ => trivial, trivial⟩
  | some a => exact ⟨fun _ _ => trivial, trivial⟩

/-- `bind` for a first part with its own condition for a killed process. -/
theorem seq {x : Proc σ α} {f : α → Proc σ β} {Q' : β → σ → Prop} {R' : σ → Prop}
    (hx : Ends F x s Q R) (hR : ∀ s', R s' → R' s') (hf : ∀ a s', Q a s' → Ends F (f a) s' Q' R') :
    Ends F (x >>= f) s Q' R' :=
  (hx.mono (fun _ _ h => h) hR).bind hf

end Ends

end Proc

end Tautq
