import Tautq.Core.RpcNet
import Tautq.Theory.RpcMoves

/-!
# Invariants of the Network

An invariant of the nodes and of what is in flight is kept by a step if it is kept by every
elementary change of the node that acts, with what the node has sent so far in flight already.
So an invariant is proved for losses, restarts, the begin of a step and single moves; the
run follows.

## Main definitions

* `Inside`: A node in the middle of a step.
* `Tidy`: Between steps everything sent is in flight.
* `Three`: Three nodes, and some of their runs.

## Theorems

* `Inside.heard`, `Inside.received`: What is handled was in flight.
* `net_invariant`: The invariant rule.
-/

namespace Tautq.Rpc

open RpcNode

/-- Between steps everything sent is in flight. -/
def Net.Tidy (s : Net) : Prop :=
  ∀ e, (s.node e).hellos = [] ∧ (s.node e).frames = [] ∧ (s.node e).self = e

/-- A node in the middle of a step that meets a condition: `n` is what it has come to. -/
structure Inside (K : Net → Act → Prop) (s : Net) (e : Endpoint) (t : Input) (n : RpcNode) :
    Prop where
  tidy : s.Tidy
  begun : ∃ a env, s.target a = some (e, env, t) ∧ K s a ∧
    Path (Move t) { s.node e with env := { env with stamp := s.clock + 1 } } n

section Inside

variable {K : Net → Act → Prop} {s : Net} {e : Endpoint} {t : Input} {n n' : RpcNode}

theorem Inside.boot_eq (h : Inside K s e t n) : n.boot = (s.node e).boot := by
  rcases h.begun with ⟨a, env, _, _, hpath⟩
  exact (sameRun_of_moves hpath).boot

theorem Inside.stamp_eq (h : Inside K s e t n) : n.env.stamp = s.clock + 1 := by
  rcases h.begun with ⟨a, env, _, _, hpath⟩
  exact (sameRun_of_moves hpath).stamp

/-- A greeting that is handled was in flight. -/
theorem Inside.heard (h : Inside K s e t n) {src : Endpoint} {m : Hello} (ht : t = .hello src m) :
    (src, e, m) ∈ s.hellos := by
  rcases h.begun with ⟨a, env, htarget, _, _⟩
  subst ht
  cases a with
  | hello k env' =>
    rcases Option.map_eq_some_iff.mp htarget with ⟨⟨src', dst, m'⟩, hk, heq⟩
    simp only [Prod.mk.injEq, Input.hello.injEq] at heq
    rcases heq with ⟨rfl, _, rfl, rfl⟩
    exact List.mem_of_getElem? hk
  | frame k env' as =>
    rcases Option.map_eq_some_iff.mp htarget with ⟨_, _, heq⟩
    simp at heq
  | act | peerDead | tick | advance => simp [Net.target] at htarget
  | loseHello | loseFrame | restart => cases htarget

/-- A frame that is handled was in flight. -/
theorem Inside.received (h : Inside K s e t n) {src : Endpoint} {f : Frame} {as : List Action}
    (ht : t = .frame src f as) : (src, e, f) ∈ s.frames := by
  rcases h.begun with ⟨a, env, htarget, _, _⟩
  subst ht
  cases a with
  | frame k env' as' =>
    rcases Option.map_eq_some_iff.mp htarget with ⟨⟨src', dst, f'⟩, hk, heq⟩
    simp only [Prod.mk.injEq, Input.frame.injEq] at heq
    rcases heq with ⟨rfl, _, rfl, rfl, _⟩
    exact List.mem_of_getElem? hk
  | hello k env' =>
    rcases Option.map_eq_some_iff.mp htarget with ⟨_, _, heq⟩
    simp at heq
  | act | peerDead | tick | advance => simp [Net.target] at htarget
  | loseHello | loseFrame | restart => cases htarget

/-- A verdict is the act of a verdict. -/
theorem Inside.verdict (h : Inside K s e t n) {a : Endpoint} (ht : t = .peerDead a) :
    ∃ env, K s (.peerDead e env a) := by
  rcases h.begun with ⟨act, env, htarget, hK, _⟩
  subst ht
  cases act with
  | peerDead e' env' a' =>
    simp only [Net.target, Option.some.injEq, Prod.mk.injEq, Input.peerDead.injEq] at htarget
    rcases htarget with ⟨rfl, _, rfl⟩
    exact ⟨env', hK⟩
  | hello k env' | frame k env' as =>
    rcases Option.map_eq_some_iff.mp htarget with ⟨_, _, heq⟩
    simp at heq
  | act | tick | advance => simp [Net.target] at htarget
  | loseHello | loseFrame | restart => cases htarget

end Inside

theorem tidy_put {s : Net} (h : s.Tidy) {e : Endpoint} {n : RpcNode} (hself : n.self = e) :
    (s.put e n).Tidy := by
  intro x
  by_cases hx : x = e
  · subst hx
    simp [Net.put, hself]
  · simp only [Net.put, Function.update_of_ne hx]
    exact h x

/-- An invariant that losses, restarts, the begin of a step and every move keep holds in every
    state of a run that meets the condition. -/
theorem net_invariant {K : Net → Act → Prop} {I : Net → Prop} {d : Setup} (init : I d.init)
    (lose : ∀ s hs fs, hs ⊆ s.hellos → fs ⊆ s.frames → I s →
    I { s with hellos := hs, frames := fs })
    (reboot : ∀ s e boot, s.Tidy → I s → K s (.restart e boot) → s.Fresh e boot →
    I (s.reboot e boot))
    (begin_ : ∀ s e env, s.Tidy → I s → env.stamp = s.clock + 1 → I (s.put e { s.node e with env }))
    (move : ∀ s e t n n', Inside K s e t n → I s → I (s.put e n) → Move t n n' → I (s.put e n'))
    {acts : List Act} {s : Net} (hrun : d.init.exec acts = some s) (hK : d.init.Meets K acts) :
    I s := by
  have hinit : d.init.Tidy ∧ I d.init := ⟨fun e => ⟨rfl, rfl, rfl⟩, init⟩
  have hstep : ∀ s a s', s.Tidy ∧ I s → K s a → s.step a = some s' → s'.Tidy ∧ I s' := by
    rintro s a s' ⟨htidy, hI⟩ hKa hstep
    -- A step of a node is the begin, and then move after move.
    have hnode : ∀ e env t, s.target a = some (e, env, t) →
        (s.put e ((s.node e).step { env with stamp := s.clock + 1 } t)).Tidy ∧
          I (s.put e ((s.node e).step { env with stamp := s.clock + 1 } t)) := by
      intro e env t htarget
      have hpath : Path (Move t) { s.node e with env := { env with stamp := s.clock + 1 } }
          ((s.node e).step { env with stamp := s.clock + 1 } t) := react_path t
      have hall : ∀ n, Path (Move t) { s.node e with env := { env with stamp := s.clock + 1 } } n →
          I (s.put e n) := by
        intro n hn
        induction hn with
        | refl => exact begin_ s e _ htidy hI rfl
        | tail hfirst hmove ih =>
          exact move s e t _ _ ⟨htidy, a, env, htarget, hKa, hfirst⟩ hI ih hmove
      refine ⟨tidy_put htidy ?_, hall _ hpath⟩
      exact (sameRun_of_moves hpath).self.trans (htidy e).2.2
    cases a with
    | loseHello k =>
      rw [Net.step, Option.some.injEq] at hstep
      rw [← hstep]
      exact ⟨htidy, lose s _ s.frames (List.eraseIdx_sublist _ _).subset (fun _ h => h) hI⟩
    | loseFrame k =>
      rw [Net.step, Option.some.injEq] at hstep
      rw [← hstep]
      exact ⟨htidy, lose s s.hellos _ (fun _ h => h) (List.eraseIdx_sublist _ _).subset hI⟩
    | restart e boot =>
      by_cases hfresh : s.Fresh e boot
      · rw [Net.step, if_pos hfresh, Option.some.injEq] at hstep
        rw [← hstep]
        refine ⟨fun x => ?_, reboot s e boot htidy hI hKa hfresh⟩
        by_cases hx : x = e
        · subst hx
          simp only [Net.reboot, Function.update_self]
          exact ⟨rfl, rfl, (htidy x).2.2⟩
        · simp only [Net.reboot, Function.update_of_ne hx]
          exact htidy x
      · rw [Net.step, if_neg hfresh] at hstep
        cases hstep
    | act | peerDead | tick | advance | hello | frame =>
      rw [Net.step, Net.perform] at hstep
      rcases Option.map_eq_some_iff.mp hstep with ⟨⟨e, env, t⟩, htarget, rfl⟩
      exact hnode e env t htarget
  have hinv : s.Tidy ∧ I s :=
    Run.exec_relation (P := fun _ s => s.Tidy ∧ I s) d.init hinit hstep acts s hrun hK
  exact hinv.2

/-! ### Runs on three nodes -/

/-- A decidable fact about the end of a run. -/
theorem net_shows {s : Net} {acts : List Act} {P : Net → Prop} [DecidablePred P]
    (h : (s.exec acts).any (fun s' => decide (P s')) = true) :
    ∃ s', s.exec acts = some s' ∧ P s' := by
  rcases (Option.any_eq_true _ _).mp h with ⟨s', hs', hp⟩
  exact ⟨s', hs', of_decide_eq_true hp⟩

namespace Three

def a : Endpoint := ⟨1, 1⟩

def b : Endpoint := ⟨2, 1⟩

def c : Endpoint := ⟨3, 1⟩

/-- Three nodes with one method. -/
def setup : Setup where
  boot e := if e = a then 11 else if e = b then 22 else 33
  handlers := [1]
  drawn e := by
    split
    · decide
    · split <;> decide

/-- A call with no callback. -/
def call (e x : Endpoint) : Act :=
  .act e {} [.call x 1 [] 1000 []]

/-- A greeting or an acknowledgement arrives, once. -/
def takes (k : Nat) : List Act :=
  [.hello k {}, .loseHello k]

/-- A call on a peer that has no session yet, and the handshake. -/
def greets (e x : Endpoint) : List Act :=
  call e x :: (takes 0 ++ takes 0 ++ takes 0 ++ takes 0)

/-- The context of the first call that an incarnation of the first node makes. -/
def asked (boot : Nat) : ReqCtx :=
  { src := a, reqId := 1, method := 1, boot }

/-- A frame arrives, once. -/
def reads (k : Nat) (as : List Action) : List Act :=
  [.frame k {} as, .loseFrame k]

end Three

end Tautq.Rpc
