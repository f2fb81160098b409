import Tautq.Safety.Runs
import Tautq.Theory.Leases
import Tautq.Theory.Owners
import Tautq.Theory.Seq

/-!
# Runs Without Takeovers

Where no node ever logs a takeover, a job stays with the node that minted it,
in its first epoch. That node alone begins transitions, and whatever another
member holds it has from the owner's log, so no other copy is ahead of the
owner's in what matters to leases: terminal states and sequence numbers.

A copy of another member can be ahead in the merge order all the same. A
member that missed an expiry still has the job leased under the number the
owner's copy has, and a resync brings that state back. That is the one change
of the owner's copy the owner did not begin (`Turn.again`).

## Main definitions

* `NoTakeover`: No log has a takeover.
* `Fixed`: Copies are in their first epoch and with their first owner.
* `Behind`: One copy is not ahead of another in what matters to leases.
* `Ruled`: The owner's copies climb, and no copy is ahead of the owner's.
* `Turn`: What a record does to a copy at its owner.

## Theorems

* `fixed`, `ruled`: Both hold as long as no takeover is logged.
* `Inside.turn`: Every record written is one of the turns.
-/

namespace Tautq

open Status Cluster

/-- No log has a takeover. -/
def NoTakeover (w : World) : Prop :=
  ∀ e, ∀ r ∈ (w e).store.log, r.isTakeover = false

theorem NoTakeover.of_grows {w w' : World} (hg : w.Grows w') (h : NoTakeover w') : NoTakeover w :=
  fun e r hr => h e r ((hg e).log.subset hr)

/-- A record that was just written is no takeover. -/
theorem NoTakeover.written {w : World} {e : Endpoint} {m' : Node} {r : Record}
    (h : NoTakeover (Function.update w e m')) (hr : r ∈ m'.store.log) : r.isTakeover = false :=
  h e r (by rw [Function.update_self]; exact hr)

/-! ### Owners and epochs stay -/

/-- Copies are in their first epoch and with their first owner, only owners send
    copies, and nothing is claimed. -/
structure Fixed (n : Node) : Prop where
  held : ∀ id j, Held n.store.log id j → j.epoch = 1 ∧ j.owner = j.replicas.first
  sent : ∀ dst boot reqId j, .request n.self dst boot reqId (.replicate j) ∈ n.outbox →
    j.owner = n.self
  claims : ∀ id, n.claims.lookup id = none

section Invariants

variable {K : Cond} {d : Deployment} {c : Cluster} {e : Endpoint} {t : Trigger} {m m' : Node}

/-- A record that is not a takeover is one of the copy's owner at its epoch, gives back
    a lease, or was committed and sent by the owner. -/
theorem Inside.fence_cases (hin : Inside K d c e t m) {r : Record} {l : Job}
    (hw : Writes t (c.node e) m r) (hr : r.full = none) (ht : r.isTakeover = false)
    (hl : m.find r.jobId = some l) :
    (l.owner = e ∧ r.fence = some l.epoch) ∨ r = .expire r.jobId l.epoch l.leaseSeq ∨
      Committed (c.node l.owner) r.jobId r := by
  have hsane := sane.reach hin.reach
  have hsame : ∀ {id : JobId} {l' : Job}, m.find id = some l' → r.jobId = id → l' = l := by
    intro id l' hl' hid
    rw [hid] at hl
    exact Option.some.inj (hl'.symm.trans hl)
  cases hw with
  | mint | adopt => cases hr
  | serve ctx _ body serves =>
    cases serves with
    | copy => cases hr
    | apply _ epoch l' trigger asked fence found unfenced owner =>
      have hcom := hsane.applied (hin.asked trigger) asked
      rw [owner.resolve_right (by rw [ht]; simp), hsame found rfl] at hcom
      exact Or.inr (Or.inr hcom)
    | claim => cases ht
  | begin_ id l' _ d' found owned begins =>
    have htrans := begins.transition
    have hll := hsame found htrans.jobId
    subst hll
    exact Or.inl ⟨owned.trans hin.self_eq, htrans.fence⟩
  | unlease id l' q s epoch leaseSeq worker found =>
    have hll := hsame found rfl
    subst hll
    exact Or.inr (Or.inl rfl)
  | seize => cases ht
  | inherit id st l' _ ripe found owned inherits =>
    have hll := hsame found (inherits_spec inherits).1
    subst hll
    exact Or.inl ⟨owned.trans hin.self_eq, (inherits_fence inherits).1⟩

theorem fixed : Always K d (fun w => ∀ e, NoTakeover w → Fixed (w e)) := by
  refine always_of_node (Q := fun w n => NoTakeover w → Fixed n)
    (fun hg h hno => h (hno.of_grows hg))
    (fun e _ =>
      ⟨fun id j hj => absurd hj (not_held_nil id j), by simp [Deployment.init], fun _ => rfl⟩)
    (fun {c e t m m'} hin hc hm hgrow hmove => ?_)
  intro hno
  have hm := hm (hno.of_grows hgrow)
  have hc' : ∀ x, Fixed (c.node x) := fun x => hc x (hno.of_grows (hin.tail hmove).grows)
  refine ⟨?_, ?_, ?_⟩
  · refine hmove.held_rule (P := fun _ j => j.epoch = 1 ∧ j.owner = j.replicas.first) hm.held ?_ ?_
    · intro r j hw _ hfull _
      rcases hin.full_origin hw hfull with ⟨p, rfl, _⟩ | ⟨_, src, _, hheld⟩
      · have hnew := mintJob_newborn m p
        exact ⟨hnew.epoch, hnew.owner.trans hnew.first.symm⟩
      · exact (hc' src).held j.id j hheld
    · intro r l hw hr hfull hl _
      have ht := hno.written hr
      have hold := hm.held _ l (Node.held_of_find hl)
      have hsame := r.on_same l hfull
      refine ⟨?_, by rw [r.on_owner_of_not_takeover l hfull ht, hsame.replicas, hold.2]⟩
      rcases hin.fence_cases hw hfull ht hl with ⟨_, hf⟩ | hexp | ⟨v, l₀, hv, hl₀, _, htrans⟩
      · rcases Record.on_epoch_cases l hf with he | he <;> rw [he, hold.1]
      · rcases Record.on_epoch_cases l (hexp ▸ rfl : r.fence = some l.epoch) with he | he <;>
          rw [he, hold.1]
      · -- The sender committed the record at its own first epoch.
        have hheld : Held (c.node l.owner).store.log r.jobId l₀ := (held_last hl₀).mono
          (((List.prefix_append v [r]).trans hv).trans (c.node l.owner).store.wal_prefix_log)
        have hone := (hc' l.owner).held _ l₀ hheld
        rcases Record.on_epoch_cases l htrans.fence with he | he
        · rw [he, hold.1]
        · rw [he, hone.1]
  · intro dst boot reqId j hp
    rw [hmove.self_eq.1] at hp ⊢
    rcases hmove.request_cases hp with hold | ⟨_, _, _, k, hasks, _⟩
    · exact hm.sent dst boot reqId j hold
    · cases hasks with
      | replicate id slot _ _ found peer entitled =>
        refine entitled.resolve_right (fun hmem => ?_)
        rw [← AList.lookup_isSome, hm.claims id] at hmem
        cases hmem
  · intro id
    by_contra hne
    rcases Option.ne_none_iff_exists'.mp hne with ⟨st, hst⟩
    have hnone : ∀ id' st', m.claims.lookup id' ≠ some st' := by
      intro id' st' h
      rw [hm.claims id'] at h
      cases h
    cases hmove.stands hst with
    | kept st' standing => exact hnone id st' standing
    | seize l found other active unclaimed open_ stored =>
      have hlog : (Record.takeover id ((l.epoch + 1) % 2 ^ 32) m.self) ∈ m'.store.log := by
        rw [stored, m.store.log_append _ open_]
        exact List.mem_append_right _ (List.mem_singleton.mpr rfl)
      cases hno.written hlog

/-! ### No copy is ahead of the owner's -/

/-- One copy is not ahead of another in what matters to leases. -/
structure Behind (a b : Job) : Prop where
  done : a.state = .done → b.state = .done
  terminal : a.terminal = true → b.terminal = true
  leaseSeq : a.leaseSeq ≤ b.leaseSeq

theorem Behind.refl (a : Job) : Behind a a :=
  ⟨fun h => h, fun h => h, le_refl _⟩

theorem Behind.trans {a b c : Job} (h : Behind a b) (h' : Behind b c) : Behind a c :=
  ⟨fun ha => h'.done (h.done ha), fun ha => h'.terminal (h.terminal ha),
    h.leaseSeq.trans h'.leaseSeq⟩

/-- Within an epoch, a copy that is not ahead advances another one only by having it
    leased where the other has it ready. -/
theorem Behind.advances {l j : Job} (h : Behind j l) (he : j.epoch = l.epoch)
    (hadv : jobAdvances l j = true) :
    l.state = .ready ∧ j.state = .leased ∧ j.leaseSeq = l.leaseSeq := by
  have hdone := h.done
  have hterm := h.terminal
  have hseq := h.leaseSeq
  unfold Job.terminal at hterm
  unfold jobAdvances at hadv
  rw [if_neg (not_not.mpr he)] at hadv
  cases hj : j.state <;> cases hl : l.state <;> simp [hj, hl] at hadv hdone hterm ⊢ <;> omega

/-- What a record does to a copy at its owner: it is leased under the next number, it
    becomes or stays terminal, it goes back to the queue after an expiry or a nack was
    told, a resync brings back the lease it had, or nothing happens. -/
inductive Turn (m : Node) (id : JobId) (l : Job) : Job → Prop where
  | lease (j : Job) (ready : l.state = .ready) (leased : j.state = .leased)
      (next : j.leaseSeq = l.leaseSeq + 1) : Turn m id l j
  | ended (j : Job) (terminal : j.terminal = true) (same : j.leaseSeq = l.leaseSeq)
      (done : l.state = .done → j.state = .done) : Turn m id l j
  | back (j : Job) (leased : l.state = .leased) (ready : j.state = .ready)
      (same : j.leaseSeq = l.leaseSeq) (disarmed : id ∉ m.leaseDeadline)
      (told : m.events.head? = some (.expired id l.leaseSeq m.now) ∨
        ∃ epoch, m.events.head? = some (.nacked id epoch l.leaseSeq m.now)) : Turn m id l j
  | again (j : Job) (ready : l.state = .ready) (leased : j.state = .leased)
      (same : j.leaseSeq = l.leaseSeq) : Turn m id l j
  | none : Turn m id l l

theorem Turn.behind {id : JobId} {l j : Job} (h : Turn m id l j) : Behind l j := by
  cases h with
  | lease _ ready leased next => exact ⟨by simp [ready], by simp [Job.terminal, ready], by omega⟩
  | ended _ terminal same done => exact ⟨done, fun _ => terminal, same.ge⟩
  | back _ leased ready same => exact ⟨by simp [leased], by simp [Job.terminal, leased], same.ge⟩
  | again _ ready leased same => exact ⟨by simp [ready], by simp [Job.terminal, ready], same.ge⟩
  | none => exact .refl l

/-- A transition the owner begins is a turn of its copy. -/
theorem Begins.turn {m₀ : Node} {id : JobId} {l : Job} {r : Record} {d' : DoneCb}
    (h : Begins t m₀ m id l r d')
    (hwrap : ∀ worker, t = .input (.lease worker) → m.store = m₀.store →
      (l.leaseSeq + 1) % 2 ^ 32 = l.leaseSeq + 1) :
    Turn m id l (r.on l) := by
  cases h with
  | lease worker trigger ready within first =>
    rw [Record.on, if_pos (by simp [ready])]
    exact .lease _ ready rfl (hwrap worker trigger first)
  | exhausted ready =>
    rw [Record.on, if_pos (by simp [ready])]
    exact .ended _ rfl rfl (by simp [ready])
  | parked leased =>
    rw [Record.on, if_pos (by simp [leased])]
    exact .ended _ rfl rfl (by simp [leased])
  | expired leased disarmed told =>
    rw [Record.on, if_pos (by simp [leased])]
    exact .back _ leased rfl rfl disarmed (Or.inl told)
  | nacked epoch leased older disarmed told =>
    rw [Record.on, if_pos (by simp [leased])]
    exact .back _ leased rfl rfl disarmed (Or.inr ⟨epoch, told⟩)
  | done epoch leaseSeq cb acks open_ =>
    rw [Record.on, if_pos (by simp [open_])]
    exact .ended _ rfl rfl (fun _ => rfl)

/-- An expiry takes nothing away that matters. -/
theorem Behind.expire {l b : Job} (id : JobId) (epoch leaseSeq : Nat) (h : Behind l b) :
    Behind ((Record.expire id epoch leaseSeq).on l) b := by
  rw [Record.on]
  split_ifs with hg
  · exact ⟨by simp, by simp [Job.terminal], h.leaseSeq⟩
  · exact h

theorem Behind.of_expire (id : JobId) (epoch leaseSeq : Nat) (l : Job) :
    Behind l ((Record.expire id epoch leaseSeq).on l) := by
  rw [Record.on]
  split_ifs with hg
  · exact ⟨by simp [hg.2.1], by simp [Job.terminal, hg.2.1], le_refl _⟩
  · exact .refl l

/-- A transition the owner has made at a copy of its own, made at another copy. What it
    makes of the other one is not ahead where both copies are behind. -/
theorem Transition.behind {id : JobId} {l₀ l b : Job} {r : Record} (h : Transition id l₀ r)
    (hown : Behind (r.on l₀) b) (hl : Behind l b) : Behind (r.on l) b := by
  cases h with
  | lease worker ready within =>
    have hseq := hown.leaseSeq
    rw [Record.on, if_pos (by simp [ready])] at hseq
    rw [Record.on]
    split_ifs with hg
    · exact ⟨by simp, by simp [Job.terminal], hseq⟩
    · exact hl
  | expire leased => exact hl.expire id _ _
  | park active =>
    have hnot : l₀.state ≠ .done := by
      intro hd
      simp [Job.terminal, hd] at active
    have hterm := hown.terminal
    rw [Record.on, if_pos ⟨le_refl _, hnot⟩] at hterm
    rw [Record.on]
    split_ifs with hg
    · exact ⟨by simp, fun _ => hterm rfl, hl.leaseSeq⟩
    · exact hl
  | done open_ =>
    have hdone := hown.done
    rw [Record.on, if_pos ⟨le_refl _, open_⟩] at hdone
    rw [Record.on]
    split_ifs with hg
    · exact ⟨fun _ => hdone rfl, fun _ => by simp [Job.terminal, hdone rfl], hl.leaseSeq⟩
    · exact hl

/-- The owner's copies climb, and no copy is ahead of all the owner has held. -/
structure Ruled (w : World) (n : Node) : Prop where
  steps : Steps (fun a b => a.owner = n.self → Behind a b) n.store.log
  bound : ∀ id j, Held n.store.log id j → ∃ l, Held (w j.owner).store.log id l ∧ Behind j l

/-- Whatever the owner has held is not ahead of what its log says now. -/
theorem Ruled.climbed {w : World} {n : Node} (h : Ruled w n) (hf : Fixed n) (hsane : Sane w)
    (hn : n = w n.self) {id : JobId} {j : Job} (hj : Held n.store.log id j)
    (ho : j.owner = n.self) : ∃ l, (replay n.store.log).find id = some l ∧ Behind j l := by
  -- All copies of the job have this owner, so the steps count for each of them.
  have hsteps : Steps (fun a b => (a.owner = n.self → Behind a b) ∧
      a.owner = b.owner) n.store.log := by
    intro v r l hv hl
    refine ⟨h.steps v r l hv hl, ?_⟩
    have hheld : Held n.store.log r.jobId l :=
      (held_last hl).mono ((List.prefix_append v [r]).trans hv)
    have hafter : Held n.store.log r.jobId (r.on l) := by
      refine (held_last ?_).mono hv
      rw [replay_snoc, find_apply_of_some r hl, if_pos rfl]
    rw [(hf.held _ _ hheld).2, (hf.held _ _ hafter).2]
    rw [hn] at hheld hafter
    rw [(hsane.same hheld hafter).replicas]
  rcases hsteps.held (R := fun a b => (a.owner = n.self → Behind a b) ∧ a.owner = b.owner)
    (fun a => ⟨fun _ => .refl a, rfl⟩)
    (fun h h' => ⟨fun ha => (h.1 ha).trans (h'.1 (h.2 ▸ ha)), h.2.trans h'.2⟩) hj with ⟨l, hl, hb⟩
  exact ⟨l, hl, hb.1 ho⟩

/-- The owner's copy of a job with an owner that stays. -/
theorem Fixed.owner_eq {w : World} (hf : ∀ x, Fixed (w x)) (hsane : Sane w) {x y : Endpoint}
    {id : JobId} {j j' : Job} (hj : Held (w x).store.log id j) (hj' : Held (w y).store.log id j') :
    j.owner = j'.owner := by
  rw [((hf x).held id j hj).2, ((hf y).held id j' hj').2, (hsane.same hj hj').replicas]

/-- A copy that is brought to the owner is of its epoch and not ahead of its own. -/
theorem Inside.brought_behind (hin : Inside K d c e t m) (hf : ∀ x, Fixed (c.node x))
    (hr : ∀ x, Ruled c.node (c.node x)) {j l : Job} (hw : Writes t (c.node e) m (.replicate j))
    (open_ : m.store.failed = false) (hl : m.find j.id = some l) (ho : l.owner = e) :
    j.epoch = l.epoch ∧ Behind j l := by
  have hsane := sane.reach hin.reach
  have hfirst := hw.brings.2
  have hl' : (c.node e).find j.id = some l := by
    rw [Node.find, ← hfirst]
    exact hl
  have hlheld := Node.held_of_find hl'
  rcases hin.brought hw with ⟨src, _, hsrc⟩
  have hheld : Held (c.node src).store.log j.id j := by
    rcases hsrc with ⟨boot, reqId, hsent⟩ | hrep
    · exact (hsane.replicated hsent rfl).1
    · exact hsane.shown hrep
  refine ⟨by rw [((hf src).held _ _ hheld).1, ((hf e).held _ _ hlheld).1], ?_⟩
  -- The sender's copy is behind one the owner has held, and that behind the current one.
  rcases (hr src).bound j.id j hheld with ⟨l₁, hl₁, hb₁⟩
  rw [Fixed.owner_eq hf hsane hheld hlheld, ho] at hl₁
  have hown₁ : l₁.owner = (c.node e).self := by
    rw [hsane.names, Fixed.owner_eq hf hsane hl₁ hlheld]
    exact ho
  rcases (hr e).climbed (hf e) hsane (by rw [hsane.names]) hl₁ hown₁ with ⟨l₂, hl₂, hb₂⟩
  rw [Store.find_log (by rw [← hfirst]; exact open_)] at hl₂
  rw [Option.some.inj (hl'.symm.trans hl₂)]
  exact hb₁.trans hb₂

/-- Nobody sends records or copies of a job to its owner. -/
theorem Inside.serves_other (hin : Inside K d c e t m) (hf : ∀ x, Fixed (c.node x)) {ctx : ReqCtx}
    {r : Record} {body : Reply} {l : Job} (h : Serves t (c.node e) m ctx r body)
    (ht : r.isTakeover = false) (hl : m.find r.jobId = some l) : l.owner ≠ e := by
  have hsane := sane.reach hin.reach
  have hne := hin.served_by h
  cases h with
  | copy j trigger asked unfenced first =>
    have hsent := hin.asked trigger
    have hrep := hsane.replicated hsent asked
    rw [Sent, asked] at hsent
    have hsrc := (hf ctx.src).sent e ctx.boot ctx.reqId j (by rw [hsane.names]; exact hsent)
    have hl' := Node.find_of_store first hl
    rw [← Fixed.owner_eq hf hsane hrep.1 (Node.held_of_find hl'), hsrc, hsane.names]
    exact hne
  | apply _ epoch l' trigger asked fence found unfenced owner =>
    rw [← Option.some.inj (found.symm.trans hl), ← owner.resolve_right (by rw [ht]; simp)]
    exact hne
  | claim => cases ht

/-- Nothing is inherited where nothing is claimed. -/
theorem Ripe.not_inherits {m₀ : Node} {id : JobId} {st : ClaimState} {l : Job} {r : Record}
    (h : Ripe t m₀ m id st) (hc : ∀ id, m₀.claims.lookup id = none) (hl : m.find id = some l) :
    Node.inherits id st l ≠ some r := by
  cases h with
  | granted dst body st₀ bit answers standing =>
    rw [hc id] at standing
    cases standing
  | alone l' found state seq =>
    have hll : l' = l := Option.some.inj (found.symm.trans hl)
    subst hll
    rw [inherits_alone state seq]
    simp

/-- Every record written to a copy at its owner is one of the turns. -/
theorem Inside.turn (hin : Inside K d c e t m) (hwrap : Unwrapped c e t)
    (hf : ∀ x, Fixed (c.node x)) (hr : ∀ x, Ruled c.node (c.node x)) {r : Record} {l : Job}
    (hw : Writes t (c.node e) m r) (hstarts : Starts t (c.node e) m r) (ht : r.isTakeover = false)
    (open_ : m.store.failed = false) (hl : m.find r.jobId = some l) (ho : l.owner = e) :
    Turn m r.jobId l (r.on l) := by
  have hbegin : ∀ {id l' d'}, m.find id = some l' → Begins t (c.node e) m id l' r d' →
      Turn m r.jobId l (r.on l) := by
    intro id l' d' hl' hb
    rw [hb.transition.jobId] at hl ⊢
    have hll : l' = l := Option.some.inj (hl'.symm.trans hl)
    subst hll
    refine hb.turn (fun worker ht first => ?_)
    subst ht
    have hbefore := Node.find_of_store first hl
    exact Unwrapped.next hwrap hbefore
  cases hw with
  | mint p cb submits fresh first count admitting view =>
    exact absurd (Node.held_of_find hl)
      (hin.mint_unheld (.mint p cb submits fresh first count admitting view))
  | serve ctx _ body serves => exact absurd ho (hin.serves_other hf serves ht hl)
  | adopt id j l' answers same found ahead first =>
    subst same
    have hll : l' = l := Option.some.inj (found.symm.trans hl)
    subst hll
    rcases hin.brought_behind hf hr (.adopt j.id j l' answers rfl found ahead first)
      open_ hl ho with ⟨hepoch, hbehind⟩
    rcases hbehind.advances hepoch ahead with ⟨hready, hleased, hseq⟩
    rw [Record.on, if_pos ahead]
    exact .again j hready hleased hseq
  | begin_ id l' _ d' found owned begins => exact hbegin found begins
  | unlease id l' =>
    -- A lease that is given back has a move of its own.
    rcases hstarts id l'.epoch l'.leaseSeq rfl with ⟨ctx, body, serves⟩ | ⟨l₁, hl₁, _, hb⟩
    · exact absurd ho (hin.serves_other hf serves ht hl)
    · exact hbegin hl₁ hb
  | seize => cases ht
  | inherit id st l' _ ripe found owned inherits =>
    exact absurd inherits (ripe.not_inherits (hf e).claims found)

/-- A record that does not give back a lease is begun, served, or no expiry. -/
theorem Writes.starts {m₀ : Node} {r : Record} (h : Writes t m₀ m r) :
    Starts t m₀ m r ∨ ∃ id epoch leaseSeq, r = .expire id epoch leaseSeq := by
  cases h with
  | serve ctx _ body serves => exact Or.inl (fun _ _ _ _ => Or.inl ⟨ctx, body, serves⟩)
  | begin_ id l _ d found owned begins => exact Or.inl (begins.starts found owned)
  | unlease id l => exact Or.inr ⟨id, l.epoch, l.leaseSeq, rfl⟩
  | inherit id st l _ ripe found owned inherits =>
    cases r with
    | expire id' epoch leaseSeq => exact Or.inr ⟨id', epoch, leaseSeq, rfl⟩
    | _ => exact Or.inl (.of_ne (by simp))
  | mint | adopt | seize => exact Or.inl (.of_ne (by simp))

theorem ruled (hK : ∀ c e t, K c e t → Unwrapped c e t) :
    Always K d (fun w => ∀ e, NoTakeover w → Ruled w (w e)) := by
  refine always_of_node (Q := fun w n => NoTakeover w → Ruled w n) ?_ ?_
    (fun {c e t m m'} hin hc hm hgrow hmove => ?_)
  · intro w w' n hg h hno
    have hn := h (hno.of_grows hg)
    refine ⟨hn.steps, fun id j hj => ?_⟩
    rcases hn.bound id j hj with ⟨l, hl, hb⟩
    exact ⟨l, hl.mono (hg j.owner).log, hb⟩
  · intro e _
    refine ⟨fun v r l hv hl => ?_, fun id j hj => absurd hj (not_held_nil id j)⟩
    exact absurd (List.prefix_nil.mp hv) (by simp)
  intro hno
  have hall := (hin.tail hmove).grows
  have hm := hm (hno.of_grows hgrow)
  have hrc : ∀ x, Ruled c.node (c.node x) := fun x => hc x (hno.of_grows hall)
  have hf : ∀ x, Fixed (c.node x) := fun x => fixed.reach hin.reach x (hno.of_grows hall)
  have hsane := sane.reach hin.reach
  have hme := hin.self_eq
  have hself := hmove.self_eq.1
  constructor
  · -- A record at the owner is a turn, or gives back a lease.
    have hs := hm.steps
    rw [hme] at hs
    rw [hself, hme]
    rcases hmove.log_cases with hlog | ⟨r, hw, open_, hlog⟩
    · rw [hlog]
      exact hs
    · rw [hlog]
      refine hs.snoc (fun l hl ho => ?_)
      rw [Store.find_log open_] at hl
      have ht : r.isTakeover = false := hno.written (by rw [hlog]; simp)
      rcases hw.starts with hstarts | ⟨id, epoch, s, rfl⟩
      · exact (hin.turn (hK c e t hin.allowed) hf hrc hw hstarts ht open_ hl ho).behind
      · exact .of_expire id epoch s l
  · -- A copy of the owner's own is its own bound.
    have hown : ∀ id j, j.owner = e → Held m'.store.log id j →
        ∃ l, Held (Function.update c.node e m' j.owner).store.log id l ∧ Behind j l := by
      intro id j ho hj
      refine ⟨j, ?_, .refl j⟩
      rw [ho, Function.update_self]
      exact hj
    refine hmove.held_rule (fun id j hj => ?_) ?_ ?_
    · rcases hm.bound id j hj with ⟨l, hl, hb⟩
      exact ⟨l, hl.mono (hgrow j.owner).log, hb⟩
    · intro r j hw _ hfull hj
      rcases hin.full_origin hw hfull with ⟨p, rfl, _⟩ | ⟨_, src, _, hheld⟩
      · exact hown _ _ hme hj
      · rcases (hrc src).bound j.id j hheld with ⟨l, hl, hb⟩
        exact ⟨l, hl.mono (hall j.owner).log, hb⟩
    · intro r l hw hr hfull hl hj
      have ht := hno.written hr
      have howner := r.on_owner_of_not_takeover l hfull ht
      rcases hm.bound _ l (Node.held_of_find hl) with ⟨b, hb, hlb⟩
      have hbound := hb.mono (hgrow l.owner).log
      rcases hin.fence_cases hw hfull ht hl with ⟨ho, _⟩ | hexp | ⟨v, l₀, hv, hl₀, ho₀, htrans⟩
      · exact hown _ _ (howner.trans ho) hj
      · rw [howner]
        refine ⟨b, hbound, ?_⟩
        rw [hexp]
        exact hlb.expire _ _ _
      · by_cases hx : l.owner = e
        · exact hown _ _ (howner.trans hx) hj
        · -- What the owner made of its own copy and the old bound are behind its current one.
          rw [Function.update_of_ne hx] at hb
          rw [hsane.names] at ho₀
          have hprefix := hv.trans (c.node l.owner).store.wal_prefix_log
          have hheld₀ : Held (c.node l.owner).store.log r.jobId l₀ :=
            (held_last hl₀).mono ((List.prefix_append v [r]).trans hprefix)
          have hon₀ : Held (c.node l.owner).store.log r.jobId (r.on l₀) := by
            refine (held_last ?_).mono hprefix
            rw [replay_snoc, find_apply_of_some r hl₀, if_pos rfl]
          have hclimb : ∀ j, Held (c.node l.owner).store.log r.jobId j →
              ∃ l', (replay (c.node l.owner).store.log).find r.jobId = some l' ∧ Behind j l' := by
            intro j hj
            refine (hrc l.owner).climbed (hf l.owner) hsane (by rw [hsane.names]) hj ?_
            rw [Fixed.owner_eq hf hsane hj hheld₀, hsane.names]
            exact ho₀
          rcases hclimb _ hon₀ with ⟨l₁, hl₁, hb₁⟩
          rcases hclimb _ hb with ⟨l₂, hl₂, hb₂⟩
          have hll : l₂ = l₁ := Option.some.inj (hl₂.symm.trans hl₁)
          subst hll
          rw [howner, Function.update_of_ne hx]
          exact ⟨l₂, held_last hl₂, htrans.behind hb₁ (hlb.trans hb₂)⟩

end Invariants

end Tautq
