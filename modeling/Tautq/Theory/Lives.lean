import Tautq.Theory.Balance

/-!
# The Life of One Node

A node by itself, handling whatever comes: any inputs, any packets with any contents, under any
choices of the environment, as long as the node admits them. Every node of a cluster lives such a
life (`exec_life`), so what holds along all of them holds in every cluster.

The account of a node is in order along its whole life (`InOrder`), across restarts as well: a new
process starts with empty books.

## Main definitions

* `Node.handle`: One event in the life of a node.
* `InOrder`: The account is in order.

## Theorems

* `exec_life`: A node of a cluster lives a life.
* `handle_cases`: An event starts a new process, or a handler deals with it.
* `handle_inOrder`, `life_inOrder`: The account stays in order.
-/

namespace Tautq

/-- One event in the life of a node: the environment's choices, and what happens. -/
def Node.handle (n : Node) (e : Sched × Trigger) : Option Node :=
  if n.admits e.2 then some (({ n with sched := e.1 } : Node).react e.2) else none

/-- A run of a node. -/
abbrev Node.live (n : Node) (es : List (Sched × Trigger)) : Option Node :=
  Run.exec Node.handle n es

/-- Whether a trigger ends the process. -/
def Trigger.restarts : Trigger → Bool
  | .input (.restart _) => true
  | _ => false

/-- An event starts a new process, or a handler deals with what it brings. -/
theorem handle_cases {n n' : Node} {e : Sched × Trigger} (h : n.handle e = some n') :
    (∃ boot, Clears (({ n with sched := e.1 } : Node).reboot boot) [] n' ∧ e.2.restarts = true) ∨
      n.admits e.2 = true ∧ Clears { n with sched := e.1 } e.2.inHand n' := by
  unfold Node.handle at h
  split at h
  · next hadmits =>
      obtain rfl := Option.some.inj h
      by_cases hrestart : ∃ boot, e.2 = .input (.restart boot)
      · rcases hrestart with ⟨boot, heq⟩
        exact Or.inl ⟨boot, heq ▸ restart_clears _ boot, heq ▸ rfl⟩
      · exact Or.inr ⟨hadmits, react_clears _ (fun boot heq => hrestart ⟨boot, heq⟩)⟩
  · cases h

/-- What every handler keeps holds along a stretch without a restart. -/
theorem live_keeps {P : Node → Prop} {n n' : Node} {es : List (Sched × Trigger)}
    (hstep : ∀ m m' sched t, m.admits t = true → Clears { m with sched } t.inHand m' → P m → P m')
    (h : n.live es = some n') (hes : ∀ e ∈ es, e.2.restarts = false) (hn : P n) : P n' := by
  refine Run.exec_invariant (K := fun _ e => e.2.restarts = false) n hn
    (fun m e m' hm he hhandle => ?_) es n' h (Run.meets_of_forall n es (fun e he _ => hes e he))
  rcases handle_cases hhandle with ⟨boot, _, hrestart⟩ | ⟨hadmits, hclears⟩
  · cases he.symm.trans hrestart
  · exact hstep m m' e.1 e.2 hadmits hclears hm

/-- One step of a cluster is an event at one node, and nothing at the others. -/
theorem step_life {c c' : Cluster} {a : Act} (h : c.step a = some c') (e : Endpoint) :
    c'.node e = c.node e ∨ ∃ ev, (c.node e).handle ev = some (c'.node e) := by
  unfold Cluster.step at h
  split at h
  · cases h
  · next dst t htarget =>
      split at h
      · next hguard =>
          obtain rfl := Option.some.inj h
          by_cases hdst : e = dst
          · subst hdst
            refine Or.inr ⟨(Cluster.choices a, t), ?_⟩
            rw [Node.handle, if_pos hguard.2]
            exact congrArg some (Function.update_self e _ c.node).symm
          · exact Or.inl (Function.update_of_ne hdst _ c.node)
      · cases h

/-- Every node of a cluster lives a life. -/
theorem exec_life {c c' : Cluster} {as : List Act} (h : c.exec as = some c') (e : Endpoint) :
    ∃ es, (c.node e).live es = some (c'.node e) := by
  induction as generalizing c with
  | nil =>
    obtain rfl := Option.some.inj h
    exact ⟨[], rfl⟩
  | cons a as ih =>
    simp only [Cluster.exec, Run.exec, Option.bind_eq_some_iff] at h
    rcases h with ⟨c₁, hstep, hrest⟩
    rcases ih hrest with ⟨es, hes⟩
    rcases step_life hstep e with hsame | ⟨ev, hev⟩
    · exact ⟨es, hsame ▸ hes⟩
    · exact ⟨ev :: es, by simp only [Node.live, Run.exec, hev, Option.bind_some]; exact hes⟩

/-! ### Accounts in order -/

/-- The account of a node is in order. -/
structure InOrder (n : Node) : Prop where
  ticketed : Ticketed (n, [])
  vouched : ∀ m, Vouched (fun _ => true) m (n, [])

section InHand

variable {n : Node} {sched : Sched} {t : Trigger}

theorem mark_inHand (t : Trigger) : ∀ i ∈ t.inHand, i.mark = none := by
  unfold Trigger.inHand
  split <;> simp [duties, Item.mark]

/-- What a trigger brings are tickets and duties. -/
theorem openCount_inHand {W : Nat → Bool} {m : Mark} :
    openCount W m ({ n with sched }, t.inHand) = openCount W m (n, []) := by
  have hother : openCount W m ({ n with sched }, t.inHand ++ []) = openCount W m (n, [] ++ []) :=
    openCount_other rfl rfl (by simp) (fun i hi => by simp [mark_inHand t i hi]) []
  rwa [List.append_nil] at hother

theorem Ticketed.inHand (h : Ticketed (n, [])) (hadmits : n.admits t = true) :
    Ticketed ({ n with sched }, t.inHand) where
  shelved := h.shelved
  room := by
    have hroom : n.nextJobSeq ≤ 2 ^ 32 := h.room
    have hone : t.inHand.count .ticket = if t.mints then 1 else 0 := by
      rw [Trigger.inHand, List.count_append, duties, count_map_eq_zero _ _ (by simp)]
      split <;> rfl
    rw [hone]
    change n.nextJobSeq + _ ≤ 2 ^ 32
    split
    · next hmints =>
        -- The node admits no submit once its numbers are used up.
        have hlt : n.nextJobSeq < 2 ^ 32 := by
          unfold Trigger.mints at hmints
          split at hmints
          · simpa [Node.admits] using hadmits
          · simpa [Node.admits] using hadmits
          · cases hmints
        exact hlt
    · exact hroom
  waiting := h.waiting

theorem Vouched.inHand {W : Nat → Bool} {m : Mark} (h : Vouched W m (n, [])) :
    Vouched W m ({ n with sched }, t.inHand) :=
  ⟨h.steady, h.known, fun k hk => openCount_inHand ▸ h.bound k hk⟩

end InHand

/-- A process that has just started has nothing on its books. -/
theorem InOrder.blank {n : Node} (hcalls : n.calls = ∅) (hpending : n.pendingSubmits = ∅)
    (hqstates : n.qstates = []) (hseq : n.nextJobSeq = 1) : InOrder n := by
  refine ⟨⟨?_, ?_, ?_⟩, fun m => ⟨fun _ _ => rfl, Or.inl rfl, fun k hk => ?_⟩⟩
  · intro r hr
    rw [hcalls] at hr
    exact absurd hr (AList.notMem_empty r)
  · change n.nextJobSeq + 0 ≤ 2 ^ 32
    rw [hseq]
    decide
  · intro id hid
    rw [hpending] at hid
    exact absurd hid (AList.notMem_empty id)
  · cases m with
    | submit id => rw [Node.expects, hpending] at hk; cases hk
    | commit q => rw [Node.expects, hqstates] at hk; cases hk
    | resync id => cases hk

/-- A run of postings keeps what is waited for vouched for. -/
theorem Clears.vouched {n n' : Node} {items : List Item} {W : Nat → Bool} {m : Mark}
    (h : Clears n items n') (hn : Ticketed (n, items)) (hb : Vouched W m (n, items)) :
    Vouched W m (n', []) :=
  (h.keeps (P := fun x => Ticketed x ∧ Vouched W m x)
    (fun _ _ _ _ hp _ hx => ⟨hp.ticketed hx.1, hp.vouched hx.1 hx.2⟩) ⟨hn, hb⟩).2

theorem Clears.ticketed {n n' : Node} {items : List Item} (h : Clears n items n')
    (hn : Ticketed (n, items)) : Ticketed (n', []) :=
  h.keeps (fun _ _ _ _ hp _ hx => hp.ticketed hx) hn

/-- An event keeps the account in order. -/
theorem handle_inOrder {n n' : Node} {e : Sched × Trigger} (h : n.handle e = some n')
    (hn : InOrder n) : InOrder n' := by
  rcases handle_cases h with ⟨boot, hclears, _⟩ | ⟨hadmits, hclears⟩
  · have hblank : InOrder (({ n with sched := e.1 } : Node).reboot boot) := .blank rfl rfl rfl rfl
    exact ⟨hclears.ticketed hblank.ticketed,
      fun m => hclears.vouched hblank.ticketed (hblank.vouched m)⟩
  · have hticketed : Ticketed ({ n with sched := e.1 }, e.2.inHand) := hn.ticketed.inHand hadmits
    exact ⟨hclears.ticketed hticketed, fun m => hclears.vouched hticketed (hn.vouched m).inHand⟩

/-- The account is in order along a whole life. -/
theorem life_inOrder {n n' : Node} {es : List (Sched × Trigger)} (h : n.live es = some n')
    (hn : InOrder n) : InOrder n' :=
  Run.exec_invariant (K := fun _ _ => True) n hn
    (fun _ _ _ hs _ hstep => handle_inOrder hstep hs) es n' h
    (Run.meets_of_forall n es (fun _ _ _ => trivial))

end Tautq
