import Tautq.Theory.Effects
import Tautq.Theory.Log

/-!
# Invariants of Runs

How a fact about every reachable state is proved. A reachable cluster takes a
step, the step is a path of moves at one node, so it is enough to look at one
move: `Inside` is everything known about a node in the middle of a step, and
`always_of_moves` is the induction over runs and paths, done once.

Most invariants say something about one node that depends on the others only
through what they have logged, sent and reported. Those histories only grow, so
such an invariant needs no argument about the nodes that did not move;
`always_of_node` is the rule for it.

Facts proved earlier hold in the middle of a step as well, before and after
the move at hand, so invariants can be proved one after the other.

## Main definitions

* `World`: The nodes, by name.
* `Reach`: Reachable by a run whose every step meets a condition.
* `Inside`: The middle of a step.
* `Always`: A fact about every reachable state and every middle of a step.

## Theorems

* `always_of_moves`, `always_of_kept`, `always_of_node`, `always_of_writes`: The induction rules.
* `Reach.along`: A relation that every move extends links the ends of a run.
-/

namespace Tautq

/-- The nodes, by name. -/
abbrev World := Endpoint → Node

namespace World

/-- Every node only grows. -/
def Grows (w w' : World) : Prop :=
  ∀ e, Tautq.Grows (w e) (w' e)

/-- Replacing a node by a later state of it. -/
theorem grows_update (w : World) (e : Endpoint) {m m' : Node} (h : Tautq.Grows m m') :
    Grows (Function.update w e m) (Function.update w e m') := by
  intro x
  by_cases hx : x = e
  · subst hx
    rw [Function.update_self, Function.update_self]
    exact h
  · rw [Function.update_of_ne hx, Function.update_of_ne hx]
    exact .refl _

end World

open Cluster

/-- Reachable by a run whose every step meets a condition. -/
def Reach (K : Cond) (d : Deployment) (c : Cluster) : Prop :=
  ∃ acts, d.init.exec acts = some c ∧ d.init.Meets K acts

/-- The middle of a step: in a reachable state a member handles a trigger it
    may handle, and has come as far as `m`. -/
structure Inside (K : Cond) (d : Deployment) (c : Cluster) (e : Endpoint) (t : Trigger) (m : Node) :
    Prop where
  reach : Reach K d c
  allowed : K c e t
  member : e ∈ d.members
  admitted : (c.node e).admits t = true
  delivered : ∀ p, t = .packet p → p.dst = e ∧ ∃ src, p ∈ (c.node src).outbox
  path : Path (Move t (c.node e)) (c.node e) m

/-- A fact about every reachable state and every middle of a step. -/
structure Always (K : Cond) (d : Deployment) (P : World → Prop) : Prop where
  reach : ∀ {c}, Reach K d c → P c.node
  inside : ∀ {c e t m}, Inside K d c e t m → P (Function.update c.node e m)

section Rules

variable {K : Cond} {d : Deployment}

theorem Inside.tail {c : Cluster} {e : Endpoint} {t : Trigger} {m m' : Node}
    (h : Inside K d c e t m) (hmove : Move t (c.node e) m m') : Inside K d c e t m' :=
  { h with path := h.path.tail hmove }

theorem Reach.init : Reach K d d.init := ⟨[], rfl, trivial⟩

theorem Reach.snoc {c c' : Cluster} {a : Act} (h : Reach K d c) (hK : Allows K c a)
    (hstep : c.step a = some c') : Reach K d c' := by
  rcases h with ⟨acts, hexec, hmeets⟩
  refine ⟨acts ++ [a], ?_, ?_⟩
  · rw [Cluster.exec, Run.exec_append _ _ _ _ hexec, Run.exec, hstep]
    rfl
  · exact (Run.meets_append _ _ _ _ _ hexec).mpr ⟨hmeets, hK, fun _ _ => trivial⟩

/-- A step is a path of moves at one node. -/
theorem step_inside {c c' : Cluster} {a : Act} (hreach : Reach K d c)
    (hmembers : c.members = d.members) (hsound : ∀ e, Sound (c.node e)) (hK : Allows K c a)
    (hstep : c.step a = some c') :
    c'.members = d.members ∧ ∃ e t m, Inside K d c e t m ∧ c'.node = Function.update c.node e m ∧
      c.target a = some (e, t) := by
  unfold Cluster.step at hstep
  cases htarget : c.target a with
  | none => simp [htarget] at hstep
  | some x =>
    rcases x with ⟨e, t⟩
    simp only [htarget] at hstep
    split at hstep
    · rename_i hok
      rw [Option.some.injEq] at hstep
      subst hstep
      refine ⟨hmembers, e, t, _, ⟨hreach, hK (e, t) htarget, hmembers ▸ hok.1, hok.2, ?_,
        react_path (c.node e) (choices a) t (hsound e)⟩, rfl, rfl⟩
      intro p hp
      cases a with
      | input dst sched i =>
        simp only [Cluster.target, Option.some.injEq, Prod.mk.injEq] at htarget
        exact absurd (htarget.2.trans hp) (by simp)
      | deliver src k sched =>
        simp only [Cluster.target, Option.map_eq_some_iff] at htarget
        rcases htarget with ⟨p', hp', heq⟩
        rw [Prod.mk.injEq] at heq
        have hpp : p' = p := Trigger.packet.inj (heq.2.trans hp)
        subst hpp
        refine ⟨heq.1, src, ?_⟩
        unfold Cluster.pending at hp'
        split at hp'
        · cases hp'
        · exact List.mem_of_getElem? hp'
    · cases hstep

/-- The condition-free part: every reachable node is sound, and the members
    are the deployment's. -/
theorem reach_sound {c : Cluster} (h : Reach K d c) :
    c.members = d.members ∧ ∀ e, Sound (c.node e) := by
  rcases h with ⟨acts, hexec, hmeets⟩
  -- The run so far is kept in the invariant, since `step_inside` asks for it.
  have hinv := @Run.exec_invariant _ _ Cluster.step (Allows K)
    (fun c => Reach (fun _ _ _ => True) d c ∧ c.members = d.members ∧ ∀ e, Sound (c.node e)) d.init
    ⟨.init, rfl, fun e s hs => by cases hs⟩
    (fun c a c' hc _ hstep => by
      rcases hc with ⟨hr, hm, hs⟩
      rcases step_inside hr hm hs (fun _ _ => trivial) hstep with ⟨hm', e, t, m, hin, hnode, _⟩
      refine ⟨hr.snoc (fun _ _ => trivial) hstep, hm', fun x => ?_⟩
      rw [hnode]
      by_cases hx : x = e
      · subst hx
        rw [Function.update_self]
        exact sound_of_path hin.path (hs x)
      · rw [Function.update_of_ne hx]
        exact hs x) acts c hexec hmeets
  exact hinv.2

/-- One more step, as a path of moves. -/
theorem Reach.step {c c' : Cluster} {a : Act} (h : Reach K d c) (hK : Allows K c a)
    (hstep : c.step a = some c') :
    Reach K d c' ∧ ∃ e t m, Inside K d c e t m ∧ c'.node = Function.update c.node e m ∧
      c.target a = some (e, t) := by
  rcases reach_sound h with ⟨hm, hs⟩
  exact ⟨h.snoc hK hstep, (step_inside h hm hs hK hstep).2⟩

/-- The induction over runs and over the moves of each step. -/
theorem always_of_moves {P : World → Prop} (init : P d.init.node)
    (step : ∀ {c e t m m'}, Inside K d c e t m → P c.node → P (Function.update c.node e m) →
      Move t (c.node e) m m' → P (Function.update c.node e m')) : Always K d P := by
  have hpath : ∀ {c e t m}, Inside K d c e t m → P c.node → P (Function.update c.node e m) := by
    intro c e t m hin hc
    rcases hin with ⟨hr, hK, hmem, hadm, hdel, hpath⟩
    induction hpath with
    | refl =>
      rw [Function.update_eq_self]
      exact hc
    | tail hpre hmove ih => exact step ⟨hr, hK, hmem, hadm, hdel, hpre⟩ hc ih hmove
  have hreach : ∀ {c}, Reach K d c → P c.node := by
    rintro c ⟨acts, hexec, hmeets⟩
    have hinv := @Run.exec_invariant _ _ Cluster.step (Allows K)
      (fun c => Reach K d c ∧ P c.node) d.init ⟨.init, init⟩
      (fun c a c' hc hK hstep => by
        rcases hc.1.step hK hstep with ⟨hr', e, t, m, hin, hnode, _⟩
        refine ⟨hr', ?_⟩
        rw [hnode]
        exact hpath hin hc.2) acts c hexec hmeets
    exact hinv.2
  exact ⟨hreach, fun hin => hpath hin (hreach hin.reach)⟩

/-- The induction for a fact about one node that depends on the others only
    through what every move keeps. -/
theorem always_of_kept {R : World → World → Prop} {Q : World → Node → Prop}
    (kept : ∀ {c e t m m'}, Inside K d c e t m → Move t (c.node e) m m' →
      R (Function.update c.node e m) (Function.update c.node e m'))
    (mono : ∀ {w w' : World} {n : Node}, R w w' → Q w n → Q w' n)
    (init : ∀ e, Q d.init.node (d.init.node e))
    (step : ∀ {c e t m m'}, Inside K d c e t m → (∀ x, Q c.node (c.node x)) →
      Q (Function.update c.node e m) m →
      R (Function.update c.node e m) (Function.update c.node e m') →
      Move t (c.node e) m m' → Q (Function.update c.node e m') m') :
    Always K d (fun w => ∀ e, Q w (w e)) := by
  refine always_of_moves init (fun {c e t m m'} hin hc hmid hmove x => ?_)
  have hkept := kept hin hmove
  have hold := hmid x
  by_cases hx : x = e
  · subst hx
    rw [Function.update_self] at hold ⊢
    exact step hin hc hold hkept hmove
  · rw [Function.update_of_ne hx] at hold ⊢
    exact mono hkept hold

/-- The same, where the others matter only through what they never take back. -/
theorem always_of_node {Q : World → Node → Prop}
    (mono : ∀ {w w' : World} {n : Node}, w.Grows w' → Q w n → Q w' n)
    (init : ∀ e, Q d.init.node (d.init.node e))
    (step : ∀ {c e t m m'}, Inside K d c e t m → (∀ x, Q c.node (c.node x)) →
      Q (Function.update c.node e m) m →
      World.Grows (Function.update c.node e m) (Function.update c.node e m') →
      Move t (c.node e) m m' → Q (Function.update c.node e m') m') :
    Always K d (fun w => ∀ e, Q w (w e)) :=
  always_of_kept (fun _ hmove => World.grows_update _ _ hmove.grows) mono init step

/-- The induction for the logs: every record a node writes takes the copy it meets
    along a relation. -/
theorem always_of_writes {R : Endpoint → Job → Job → Prop}
    (step : ∀ {c e t m r l}, Inside K d c e t m → Writes t (c.node e) m r →
      m.find r.jobId = some l → R e l (r.on l)) :
    Always K d (fun w => ∀ e, Steps (R e) (w e).store.log) := by
  refine always_of_moves (fun e v r l hv => ?_) (fun {c e t m m'} hin _ hmid hmove x => ?_)
  · exact absurd (List.prefix_nil.mp hv) (by simp)
  have hx := hmid x
  by_cases hxe : x = e
  · subst hxe
    rw [Function.update_self] at hx ⊢
    rcases hmove.log_cases with heq | ⟨r, hw, open_, heq⟩
    · rw [heq]
      exact hx
    · rw [heq]
      refine hx.snoc (fun l hl => ?_)
      rw [Store.find_log open_] at hl
      exact step hin hw hl
  · rw [Function.update_of_ne hxe] at hx ⊢
    exact hx

/-- What holds of every record that is written holds of the records of all logs. -/
theorem always_of_records {P : Record → Prop}
    (step : ∀ {c e t m r}, Inside K d c e t m → Writes t (c.node e) m r → P r) :
    Always K d (fun w => ∀ e, ∀ r ∈ (w e).store.log, P r) := by
  refine always_of_node (Q := fun _ n => ∀ r ∈ n.store.log, P r) (fun _ h => h)
    (fun e => by simp [Deployment.init, Store.log]) (fun hin _ hm _ hmove r hr => ?_)
  rcases hmove.record_cases hr with hold | hw
  · exact hm r hold
  · exact step hin hw

/-- A relation between worlds that every move extends links the ends of a
    run. -/
theorem Reach.along {R : World → World → Prop} (refl : ∀ w, R w w)
    (move : ∀ {w₀ : World} {c e t m m'}, Inside K d c e t m → R w₀ (Function.update c.node e m) →
      Move t (c.node e) m m' → R w₀ (Function.update c.node e m'))
    {c c' : Cluster} {acts : List Act} (h : Reach K d c) (hexec : c.exec acts = some c')
    (hmeets : c.Meets K acts) : R c.node c'.node := by
  have hrel := @Run.exec_relation _ _ Cluster.step (Allows K)
    (fun a b => Reach K d b ∧ R a.node b.node) c ⟨h, refl _⟩
    (fun b a b' hb hK hstep => by
      rcases hb.1.step hK hstep with ⟨hr', e, t, m, hin, hnode, _⟩
      refine ⟨hr', ?_⟩
      rw [hnode]
      rcases hin with ⟨hr, hK, hmem, hadm, hdel, hpath⟩
      clear hnode
      induction hpath with
      | refl =>
        rw [Function.update_eq_self]
        exact hb.2
      | tail hpre hmove ih => exact move ⟨hr, hK, hmem, hadm, hdel, hpre⟩ ih hmove)
    acts c' hexec hmeets
  exact hrel.2

/-- What the acting node has logged, sent and reported only grows in a step. -/
theorem Inside.node_grows {c : Cluster} {e : Endpoint} {t : Trigger} {m : Node}
    (h : Inside K d c e t m) : Grows (c.node e) m :=
  h.path.keeps (P := Grows (c.node e)) (fun _ _ hmove hs => hs.trans hmove.grows) (.refl _)

theorem Inside.grows {c : Cluster} {e : Endpoint} {t : Trigger} {m : Node}
    (h : Inside K d c e t m) : World.Grows c.node (Function.update c.node e m) := by
  have hup := World.grows_update c.node e h.node_grows
  rwa [Function.update_eq_self] at hup

/-- An event that is new after a step was reported by one of its moves. -/
theorem Inside.reported {c : Cluster} {e : Endpoint} {t : Trigger} {m : Node} {new : List Event}
    {ev : Event} (hin : Inside K d c e t m) (heq : m.events = new ++ (c.node e).events)
    (hev : ev ∈ new) :
    ∃ m₁ m₂, Inside K d c e t m₁ ∧ Move t (c.node e) m₁ m₂ ∧ Reports t (c.node e) m₁ m₂ ev ∧
      Path (Move t (c.node e)) m₂ m := by
  rcases hin with ⟨hr, hK, hmem, hadm, hdel, hpath⟩
  -- The last move reported it, or it was new before that move.
  induction hpath generalizing new with
  | refl =>
    have hnil : new = [] := List.self_eq_append_left.mp heq
    subst hnil
    cases hev
  | @tail m₁ m₂ hpre hmove ih =>
    have hin₁ : Inside K d c e t m₁ := ⟨hr, hK, hmem, hadm, hdel, hpre⟩
    rcases hmove.adds.events with ⟨added, hadd, hwhy⟩
    rcases hin₁.node_grows.events with ⟨old, hold⟩
    have hnew : new = added ++ old := by
      rw [hadd, ← hold, ← List.append_assoc] at heq
      exact (List.append_cancel_right heq).symm
    rcases List.mem_append.mp (hnew ▸ hev) with hlast | hbefore
    · exact ⟨m₁, m₂, hin₁, hmove, hwhy ev hlast, .refl⟩
    · rcases ih hold.symm hbefore with ⟨m₃, m₄, hin₃, hmove', hwhy', hrest⟩
      exact ⟨m₃, m₄, hin₃, hmove', hwhy', hrest.tail hmove⟩

/-- The same for the node the step is about, whichever it is. -/
theorem Reach.step_reports {c c' : Cluster} {a : Act} {e : Endpoint} {new : List Event} {ev : Event}
    (h : Reach K d c) (hK : Allows K c a) (hstep : c.step a = some c')
    (heq : (c'.node e).events = new ++ (c.node e).events) (hev : ev ∈ new) :
    ∃ t m₁ m₂, c.target a = some (e, t) ∧ Inside K d c e t m₁ ∧ Move t (c.node e) m₁ m₂ ∧
      Reports t (c.node e) m₁ m₂ ev ∧ Path (Move t (c.node e)) m₂ (c'.node e) := by
  rcases h.step hK hstep with ⟨_, x, t, m, hin, hnode, htarget⟩
  obtain rfl : e = x := by
    by_contra hne
    rw [hnode, Function.update_of_ne hne] at heq
    rw [List.self_eq_append_left.mp heq] at hev
    cases hev
  rw [hnode, Function.update_self] at heq ⊢
  rcases hin.reported heq hev with ⟨m₁, m₂, hin₁, hmove, hrep, hrest⟩
  exact ⟨t, m₁, m₂, htarget, hin₁, hmove, hrep, hrest⟩

end Rules

end Tautq
