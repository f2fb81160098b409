import Tautq.Safety.Epochs

/-!
# A Drained Node

A node drains by handing its jobs over, and its callback fires when a scan of
the store finds none left that is still to be done. From then on it admits no
submit and takes nothing over, so it could only become an owner again by a
copy that says so. Whoever names a node as the owner of an epoch has it from
that node, so such a copy is of no later epoch than the node's own; but within
an epoch a copy of another owner replaces the stored one when it is ahead, and
that way a job comes back (`drained_owner`).

While copies keep the owner of their epoch, a node is retired for good
(`drained_stays`): its own copies at the scan are all decided, and nothing
within an epoch undoes that.

## Main definitions

* `Retired`: A draining node without a job of its own to do.

## Theorems

* `drained_owner`: A node that has drained comes to own a leased job.
* `drained_stays`: Under the condition none does.
-/

namespace Tautq

open Status Cluster

/-- The node drains, and the jobs it owns are decided. -/
structure Retired (n : Node) : Prop where
  draining : n.draining = true
  decided : ∀ id j, n.find id = some j → j.owner = n.self → j.terminal = true

/-! ### A job that comes back -/

namespace Trio

/-- `b` and `c` both own the job at epoch 2. `b` leases it, gets it back and restarts; the
    copy `a` sends it meanwhile is of that lease. Then `b` adopts the owner `c`, whose lease
    with the same number is given back as well, and drains. -/
def undrained : List Act :=
  rivals ++
    [.does b (.ack job 2 1 false),
    -- `b` restarts and asks `a` for its copy.
      .does b (.restart 2), .takes b 8,
    -- The lease of `c` reaches `b` as a copy, then as a record; so does its end.
      .does c (.lease 8), .does c .tick, .takes c 4, .takes c 2, .takes b 11,
      .does c (.ack job 2 1 false), .takes c 6, .does b .drain]

end Trio

/-- The callback of `b` fires, and the copy that `a` has sent makes `b` the owner of a leased
    job. -/
theorem drained_owner : ∃ c c', Trio.cluster.init.exec Trio.undrained = some c ∧
    c.exec [.does Trio.b .tick, .takes Trio.a 4] = some c' ∧
    .drained ∉ (c.node Trio.b).events ∧ .drained ∈ (c'.node Trio.b).events ∧
    ((c'.node Trio.b).find Trio.job).map (fun j => (j.owner, j.state)) = some (Trio.b, .leased) :=
  run_turns (by decide +kernel)

/-! ### What a retired node writes -/

/-- Within an epoch a decided copy is replaced by decided ones. -/
theorem jobAdvances_terminal {l j : Job} (h : jobAdvances l j = true) (he : j.epoch = l.epoch)
    (hl : l.terminal = true) : j.terminal = true := by
  unfold jobAdvances at h
  rw [if_neg (by simp [he])] at h
  by_cases hj : j.state = .done
  · simp [Job.terminal, hj]
  by_cases hj' : j.state = .deadLetter
  · simp [Job.terminal, hj']
  · rcases (by simpa [Job.terminal] using hl : l.state = .done ∨ l.state = .deadLetter) with hl | hl
    · simp [hl, hj] at h
    · simp [hl, hj, hj'] at h

/-- A record that is no full copy and hands the job to nobody leaves a decided copy decided
    and the owner in place. -/
theorem Record.on_decided {r : Record} {l : Job} (hr : r.full = none) (e : Endpoint)
    (hnot : ∀ id epoch, r ≠ .takeover id epoch e) (hl : l.owner = e → l.terminal = true)
    (ho : (r.on l).owner = e) : (r.on l).terminal = true := by
  cases r with
  | submit | replicate => cases hr
  | lease id epoch s worker =>
    simp only [on] at ho ⊢
    split at ho
    · rename_i hcond
      have hterm := hl ho
      simp [Job.terminal, hcond.2.1, hcond.2.2] at hterm
    · rename_i hcond
      rw [if_neg hcond]
      exact hl ho
  | done id epoch s =>
    simp only [on] at ho ⊢
    split at ho
    · rename_i hcond
      simp [if_pos hcond, Job.terminal]
    · rename_i hcond
      rw [if_neg hcond]
      exact hl ho
  | expire id epoch s =>
    simp only [on] at ho ⊢
    split at ho
    · rename_i hcond
      have hterm := hl ho
      simp [Job.terminal, hcond.2.1] at hterm
    · rename_i hcond
      rw [if_neg hcond]
      exact hl ho
  | deadLetter id epoch =>
    simp only [on] at ho ⊢
    split at ho
    · rename_i hcond
      simp [if_pos hcond, Job.terminal]
    · rename_i hcond
      rw [if_neg hcond]
      exact hl ho
  | takeover id epoch o =>
    simp only [on] at ho ⊢
    split at ho
    · have hoe : o = e := ho
      exact absurd (by rw [hoe]) (hnot id epoch)
    · rename_i hcond
      rw [if_neg hcond]
      exact hl ho

section Invariants

variable {K : Cond} {d : Deployment} {c : Cluster} {e : Endpoint} {t : Trigger} {m m' : Node}

/-- A node that drains mints nothing. -/
theorem Writes.not_minted {r : Record} (hd : m.draining = true) (hw : Writes t (c.node e) m r)
    (b : Job) : r ≠ .submit b := by
  rintro rfl
  cases hw with
  | mint p cb submits fresh first count admitting =>
    exact absurd (hd.symm.trans admitting) (by simp)
  | serve ctx _ body serves => exact absurd rfl (serves.not_submit b)
  | begin_ id l _ d found owned begins => exact absurd rfl (begins.not_submit b)
  | inherit id st l _ ripe found owned inherits =>
    exact absurd (inherits_spec inherits).2 (by simp [Record.full])

/-- A node that drains takes nothing over: the takeovers it writes are those of the nodes it
    has them from. -/
theorem Inside.not_taken (hin : Inside K d c e t m) {r : Record} (hd : m.draining = true)
    (hw : Writes t (c.node e) m r) (id : JobId) (epoch : Nat) : r ≠ .takeover id epoch e := by
  rintro rfl
  rcases hin.taken_cases hw with ⟨_, admitting⟩ | ⟨_, _, _, _, _, hne, _⟩
  · exact absurd (hd.symm.trans admitting) (by simp)
  · exact hne rfl

/-- A copy that names this node is of no later epoch than the stored one. -/
theorem Inside.own_epoch_le (hin : Inside K d c e t m) (open_ : m.store.failed = false) {id : JobId}
    {epoch : Nat} (h : Owned c.node e id epoch e) : ∃ l, m.find id = some l ∧ epoch ≤ l.epoch := by
  rcases h with ⟨j₀, hj₀, rfl, _⟩
  have hproper := ((sane.inside hin).copies e).proper
  rw [Function.update_self] at hproper
  rcases hproper.epoch_le (hj₀.mono hin.node_grows.log) with ⟨l, hl, hle⟩
  rw [Store.find_log open_] at hl
  exact ⟨l, hl, hle⟩

/-- What a retired node writes leaves it retired. -/
theorem Inside.retired_write (hK : KeepsOwner c e t) (hin : Inside K d c e t m)
    (h : Retired m) {r : Record}
    (hw : Writes t (c.node e) m r) (open_ : m.store.failed = false) {j : Job}
    (hj : (m.store.append r).table.find r.jobId = some j) (ho : j.owner = e) :
    j.terminal = true := by
  have hme := hin.self_eq
  have hfind : r.effect (m.find r.jobId) = some j :=
    (Table.find_apply_self m.store.table r).symm.trans hj
  cases hr : r.full with
  | none =>
    cases hl : m.find r.jobId with
    | none =>
      rw [hl, Record.effect, hr] at hfind
      cases hfind
    | some l =>
      rw [hl, Record.effect, Option.some.injEq] at hfind
      subst hfind
      exact Record.on_decided hr e (hin.not_taken h.draining hw)
        (fun hlo => h.decided _ l hl (hlo.trans hme.symm)) ho
  | some j₁ =>
    cases r with
    | submit b => exact absurd rfl (hw.not_minted h.draining b)
    | replicate j' =>
      have hown := hin.full_owned (fun x => owners.reach hin.reach x) hw rfl
      rcases hown with ⟨p, _, hsub⟩ | ⟨_, _, hown⟩
      · cases hsub
      -- The copy that is left is the one that came, or the one that was there.
      have hcame : j'.owner = e → ∃ l, m.find j'.id = some l ∧ j'.epoch ≤ l.epoch := by
        intro hjo
        rw [hjo] at hown
        exact hin.own_epoch_le open_ hown
      cases hl : m.find (Record.replicate j').jobId with
      | none =>
        rw [hl, Record.effect, Record.full, Option.some.injEq] at hfind
        subst hfind
        rcases hcame ho with ⟨l, hl', _⟩
        rw [show (Record.replicate j').jobId = j'.id from rfl] at hl
        rw [hl] at hl'
        cases hl'
      | some l =>
        rw [hl, Record.effect, Option.some.injEq, Record.on] at hfind
        by_cases hadv : jobAdvances l j' = true
        · rw [if_pos hadv] at hfind
          subst hfind
          rcases hcame ho with ⟨l', hl', hle⟩
          have hll : l' = l := Option.some.inj (hl'.symm.trans hl)
          subst hll
          have he : j'.epoch = l'.epoch := le_antisymm hle (jobAdvances_epoch hadv)
          rcases hw.brings with ⟨hbrings, hfirst⟩
          have hl₀ : (c.node e).find j'.id = some l' := by
            rw [Node.find, ← hfirst]
            exact hl
          have hlo := hK j' hbrings l' hl₀ hadv he
          exact jobAdvances_terminal hadv he
            (h.decided _ l' hl (hlo.symm.trans (ho.trans hme.symm)))
        · rw [if_neg hadv] at hfind
          subst hfind
          exact h.decided _ l hl (ho.trans hme.symm)
    | lease | done | expire | deadLetter | takeover => cases hr

/-- The records a log has gained say nothing of new jobs of a node. -/
def Gained (e : Endpoint) (log log' : List Record) : Prop :=
  ∃ later, log' = log ++ later ∧ ∀ r ∈ later, (∀ b, r ≠ .submit b) ∧
    ∀ id epoch, r ≠ .takeover id epoch e

theorem Gained.refl (e : Endpoint) (log : List Record) : Gained e log log :=
  ⟨[], (List.append_nil log).symm, by simp⟩

theorem Gained.trans {e : Endpoint} {a b c : List Record} (h : Gained e a b) (h' : Gained e b c) :
    Gained e a c := by
  rcases h with ⟨x, rfl, hx⟩
  rcases h' with ⟨y, rfl, hy⟩
  refine ⟨x ++ y, List.append_assoc a x y, fun r hr => ?_⟩
  rcases List.mem_append.mp hr with hr | hr
  · exact hx r hr
  · exact hy r hr

/-- A move keeps a node retired, unless it is a restart. -/
theorem Inside.retired_move (hK : KeepsOwner c e t) (hin : Inside K d c e t m)
    (hmove : Move t (c.node e) m m') (hup : ∀ boot, t ≠ .input (.restart boot)) (h : Retired m) :
    Retired m' ∧ Gained e m.store.log m'.store.log := by
  have hdraining : m'.draining = true := by
    rcases hmove.draining_cases with heq | htrue | ⟨boot, ht⟩
    · exact heq.trans h.draining
    · exact htrue
    · exact absurd ht (hup boot)
  have hself := hmove.self_eq.1
  have hgained : Gained e m.store.log m'.store.log := by
    rcases hmove.log_cases with heq | ⟨r, hw, _, heq⟩
    · exact heq ▸ .refl e _
    · refine ⟨[r], heq, fun r' hr' => ?_⟩
      rw [List.mem_singleton.mp hr']
      exact ⟨hw.not_minted h.draining, hin.not_taken h.draining hw⟩
  refine ⟨⟨hdraining, fun id j hj ho => ?_⟩, hgained⟩
  rw [hself] at ho
  -- Only an append changes the table of a node that does not restart.
  have hstore := hmove.store_step
  unfold Node.find at hj
  generalize m'.store = s at hstore hj
  cases hstore with
  | same => exact h.decided id j hj ho
  | fail r limbo => exact h.decided id j hj ho
  | compact disk =>
    rw [(m.store.compact_eq disk).1] at hj
    exact h.decided id j hj ho
  | reopen boot trigger => exact absurd trigger (hup boot)
  | append r hw open_ =>
    by_cases hid : r.jobId = id
    · subst hid
      exact hin.retired_write hK h hw open_ hj (ho.trans hin.self_eq)
    · have hsame : (m.store.append r).table.find id = m.store.table.find id :=
        (Table.find_apply m.store.table r id).trans (if_neg hid)
      rw [hsame] at hj
      exact h.decided id j hj ho

/-- So does the rest of a step. -/
theorem Inside.retired_rest (hK : KeepsOwner c e t) (hin : Inside K d c e t m)
    (hup : ∀ boot, t ≠ .input (.restart boot)) (hrest : Path (Move t (c.node e)) m m')
    (h : Retired m) : Retired m' ∧ Gained e m.store.log m'.store.log := by
  induction hrest with
  | refl => exact ⟨h, .refl e _⟩
  | @tail m₁ m₂ hpre hmove ih =>
    have hin₁ : Inside K d c e t m₁ := { hin with path := hin.path.trans hpre }
    rcases ih with ⟨h₁, hg₁⟩
    rcases hin₁.retired_move hK hmove hup h₁ with ⟨h₂, hg₂⟩
    exact ⟨h₂, hg₁.trans hg₂⟩

/-- A restart comes from outside. -/
theorem target_restart {a : Act} {boot : Nat} (h : c.target a = some (e, .input (.restart boot))) :
    ∃ sched, a = .input e sched (.restart boot) := by
  cases a with
  | input dst sched i =>
    simp only [Cluster.target, Option.some.injEq, Prod.mk.injEq, Trigger.input.injEq] at h
    exact ⟨sched, by rw [h.1, h.2]⟩
  | deliver src k sched =>
    simp only [Cluster.target, Option.map_eq_some_iff, Prod.mk.injEq] at h
    rcases h with ⟨_, _, _, ht⟩
    cases ht

/-- A step of another node leaves a node as it is, and one of its own retired. -/
theorem Reach.retired_step (hK : ∀ c e t, K c e t → KeepsOwner c e t)
    (hreach : Reach K d c) {a : Act}
    {c' : Cluster} (hallows : Allows K c a) (hstep : c.step a = some c')
    (hup : ∀ sched boot, a ≠ .input e sched (.restart boot)) (h : Retired (c.node e)) :
    Retired (c'.node e) ∧ Gained e (c.node e).store.log (c'.node e).store.log := by
  rcases hreach.step hallows hstep with ⟨_, x, t, m, hin, hnode, htarget⟩
  rw [hnode]
  by_cases hxe : e = x
  · subst hxe
    rw [Function.update_self]
    refine Inside.retired_rest (hK c e t hin.allowed) { hin with path := .refl }
      (fun boot ht => ?_) hin.path h
    subst ht
    rcases target_restart htarget with ⟨sched, ha⟩
    exact hup sched boot ha
  · rw [Function.update_of_ne hxe]
    exact ⟨h, .refl e _⟩

end Invariants

/-- In every run in which copies keep the owner of their epoch: from the step on in which the
    drain callback of a node fires, and until the node restarts, no job it owns is ready or
    leased, and it logs no submit and no takeover by itself. -/
theorem drained_stays (d : Deployment) (acts acts' : List Act) (a : Act) (c c' c'' : Cluster)
    (hrun : d.init.exec acts = some c) (hstep : c.step a = some c')
    (hexec : c'.exec acts' = some c'')
    (hK : d.init.Meets KeepsOwner (acts ++ a :: acts')) (e : Endpoint) (new : List Event)
    (hnew : (c'.node e).events = new ++ (c.node e).events) (hev : .drained ∈ new)
    (hup : ∀ sched boot, .input e sched (.restart boot) ∉ a :: acts') :
    (∀ id j, (c''.node e).find id = some j → j.owner = e → j.terminal = true) ∧
      ∃ later, (c''.node e).store.log = (c'.node e).store.log ++ later ∧
        ∀ r ∈ later, (∀ b, r ≠ .submit b) ∧ ∀ id epoch, r ≠ .takeover id epoch e := by
  rcases (Run.meets_append _ _ _ _ _ hrun).mp hK with ⟨hbefore, hallows, hafter⟩
  have hreach := Reach.of_run hrun hbefore
  have hreach' := hreach.snoc hallows hstep
  -- The node is retired when the callback fires, and so at the end of that step.
  have hstart : Retired (c'.node e) := by
    rcases hreach.step_reports hallows hstep hnew hev with
      ⟨t, m₁, m₂, htarget, hin₁, hmove, hrep, hrest⟩
    cases hrep with
    | idle _ h => cases h
    | drained draining none_ =>
      refine (hin₁.retired_rest (hallows _ htarget) (fun boot ht => ?_) (.head hmove hrest)
        ⟨draining, none_⟩).1
      subst ht
      rcases target_restart htarget with ⟨sched, rfl⟩
      exact hup sched boot List.mem_cons_self
  have hquiet : Run.Meets Cluster.step (fun _ a => ∀ sched boot, a ≠ .input e sched (.restart boot))
      c' acts' :=
    Run.meets_of_forall _ _
      (fun a ha _ sched boot heq => hup sched boot (List.mem_cons_of_mem _ (heq ▸ ha)))
  have hrel := @Run.exec_relation _ _ Cluster.step _
    (fun _ b => Reach KeepsOwner d b ∧ Retired (b.node e) ∧
    Gained e (c'.node e).store.log (b.node e).store.log) c' ⟨hreach', hstart, .refl e _⟩
    (fun b a b' hb hKa hstep => by
      rcases hb with ⟨hr, hret, hg⟩
      rcases hr.retired_step (fun _ _ _ h => h) hKa.1 hstep hKa.2 hret with ⟨hret', hg'⟩
      exact ⟨hr.snoc hKa.1 hstep, hret', hg.trans hg'⟩)
    acts' c'' hexec (Run.meets_and _ _ (hafter c' hstep) hquiet)
  rcases hrel with ⟨hr, hret, hg⟩
  refine ⟨fun id j hj ho => hret.decided id j hj (ho.trans (names.reach hr e).1.symm), hg⟩

namespace Trio

/-- The job of `a` is done when it drains. -/
def finished : List Act :=
  unleased ++
    [.takes b 0, .does a (.lease 7), .takes a 2, .takes b 1, .does a (.ack job 1 1 true),
      .does a .drain]

/-- A new key is refused, and `c`, which has seen nobody, claims the job from `a`. -/
def claimedLate : List Act :=
  [.does a (.submit { params with idemKey := [2] }), .does c (.view []), .does c (.peerDead a),
    .does c (.view [a, b]), .does c (.advance 1000), .does c .tick, .takes c 1, .does a .tick]

end Trio

/-- The condition is met by a run in which the drained node grants a claim. -/
theorem drained_stays_claimedLate : ∃ c c' c'', Trio.cluster.init.exec Trio.finished = some c ∧
    c.step (.does Trio.a .tick) = some c' ∧ c'.exec Trio.claimedLate = some c'' ∧
    (c'.node Trio.a).events = .drained :: (c.node Trio.a).events ∧
    .takeover Trio.job 2 Trio.c ∈ (c''.node Trio.a).store.log ∧
    ∀ id j, (c''.node Trio.a).find id = some j → j.owner = Trio.a → j.terminal = true := by
  have hK : Trio.cluster.init.Meets KeepsOwner
      (Trio.finished ++ .does Trio.a .tick :: Trio.claimedLate) := by decide +kernel
  have hfirst : ∃ c c', Trio.cluster.init.exec Trio.finished = some c ∧
      c.exec [.does Trio.a .tick] = some c' ∧
      (c'.node Trio.a).events = .drained :: (c.node Trio.a).events := run_turns (by decide +kernel)
  have hlast : ∃ c c', Trio.cluster.init.exec (Trio.finished ++ [.does Trio.a .tick]) = some c ∧
      c.exec Trio.claimedLate = some c' ∧
      .takeover Trio.job 2 Trio.c ∈ (c'.node Trio.a).store.log := run_turns (by decide +kernel)
  rcases hfirst with ⟨c, c', hc, hc', hev⟩
  rcases hlast with ⟨c₁, c'', hc₁, hc'', htake⟩
  have hsame : c₁ = c' := by
    rw [Cluster.exec, Run.exec_append _ _ _ _ hc] at hc₁
    exact Option.some.inj (hc₁.symm.trans hc')
  subst hsame
  have hstep : c.step (.does Trio.a .tick) = some c₁ := by
    rw [Cluster.exec, Run.exec] at hc'
    rcases Option.bind_eq_some_iff.mp hc' with ⟨s, hs, hs'⟩
    exact hs.trans hs'
  refine ⟨c, c₁, c'', hc, hstep, hc'', hev, htake, ?_⟩
  refine (drained_stays _ _ _ _ c c₁ c'' hc hstep hc'' hK Trio.a [.drained] hev
    List.mem_cons_self ?_).1
  intro sched boot
  simp [Trio.claimedLate, Act.does, Act.takes]

end Tautq
