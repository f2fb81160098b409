import Tautq.Theory.Paths

/-!
# Quorum Commits Are Paths of Moves

The second part of the decomposition: a transition is logged, sent to the
peers and decided by their replies, and leases are granted that way.

A quorum commit sends its requests in a loop, and a refused send counts as a
failed reply inside it. The last refused send can decide the commit, so what
the loop carries (`Sending`) allows the store to have grown.

## Main definitions

* `Grew`: The store may have grown by transition records.
* `Sending`: What the loop of a quorum commit relies on.

## Theorems

* `onApplyReply_fail`, `onApplyReply_ok`: A reply is counted and may decide.
* `quorumCommit_spec`: A transition of the owner.
* `lease_path`: Granting a job.
-/

namespace Tautq

open Status Node

section Lease

variable {t : Trigger} {m₀ m : Node}

theorem Begins.transition {id : JobId} {l : Job} {r : Record} {d : DoneCb}
    (h : Begins t m₀ m id l r d) : Transition id l r := by
  cases h with
  | lease worker _ ready within => exact .lease worker ready within
  | exhausted ready => exact .park (by simp [Job.terminal, ready])
  | parked leased => exact .park (by simp [Job.terminal, leased])
  | expired leased => exact .expire leased
  | nacked _ leased => exact .expire leased
  | done _ _ _ _ open_ => exact .done open_

/-- An expiry this node starts has no callback. -/
theorem Begins.starts {id : JobId} {l : Job} {r : Record} {d : DoneCb} (h : Begins t m₀ m id l r d)
    (hfind : m.find id = some l) (howned : l.owner = m.self) : Starts t m₀ m r := by
  intro id' epoch leaseSeq hr
  cases h with
  | expired leased disarmed told =>
    cases hr
    exact Or.inr ⟨l, hfind, howned, .expired leased disarmed told⟩
  | nacked epoch' leased older disarmed told =>
    cases hr
    exact Or.inr ⟨l, hfind, howned, .nacked epoch' leased older disarmed told⟩
  | lease | exhausted | parked | done => cases hr

theorem Transition.jobId {id : JobId} {l : Job} {r : Record} (h : Transition id l r) :
    r.jobId = id := by
  cases h <;> rfl

theorem Transition.full {id : JobId} {l : Job} {r : Record} (h : Transition id l r) :
    r.full = none := by
  cases h <;> rfl

theorem Transition.not_takeover {id : JobId} {l : Job} {r : Record} (h : Transition id l r) :
    r.isTakeover = false := by
  cases h <;> rfl

theorem Transition.not_submit {id : JobId} {l : Job} {r : Record} (h : Transition id l r) :
    ∀ j, r ≠ .submit j := by
  rintro j rfl
  cases h

theorem Begins.carries {id : JobId} {l : Job} {r : Record} {d : DoneCb}
    (h : Begins t m₀ m id l r d) : d.carries r := by
  cases h with
  | lease => rfl
  | exhausted | parked => exact Or.inr ⟨id, l.epoch, rfl⟩
  | expired | nacked => exact Or.inl ⟨id, l.epoch, l.leaseSeq, rfl⟩
  | done => exact ⟨l.epoch, l.leaseSeq, rfl⟩

/-- A transition record acts on the copy its owner found. -/
theorem find_append_of_found (s : Store) {r : Record} {id : JobId} {l : Job} (hr : r.jobId = id)
    (h : s.table.find id = some l) : (s.append r).table.find id = some (r.on l) := by
  rw [← hr] at h ⊢
  refine (Table.find_apply_self s.table r).trans ?_
  rw [h, Record.effect]

theorem ackSource_set {id : JobId} {cb : AckCb} {q : Nat} {s s' : QState}
    (state : m.qstates[q]? = some s) (hs' : s'.done = .ack id cb) (m' : Node)
    (h : m'.qstates = m.qstates.set q s') : AckSource t m' id cb := by
  refine Or.inr ⟨s', ?_, hs'⟩
  rw [h]
  have hlt : q < m.qstates.length := (List.getElem?_eq_some_iff.mp state).1
  exact List.mem_set hlt s'

/-- The callback of a commit whose own append failed: the log is closed, so
    giving a lease back writes nothing. -/
theorem fireDone_closed (d : DoneCb) (closed : m.store.failed = true)
    (hsrc : ∀ id cb, d = .ack id cb → AckSource t m id cb) :
    Path (Move t m₀) m (m.fireDone d false) := by
  cases d with
  | ignore => exact .refl
  | lease id epoch leaseSeq worker =>
    simp only [Node.fireDone, Node.leaseDone]
    cases hfind : m.find id with
    | none => exact .single (.note m _ trivial)
    | some j =>
      simp only [Bool.false_eq_true, if_false]
      have hout := commit_outcome m (.expire id j.epoch j.leaseSeq)
      generalize m.commit (.expire id j.epoch j.leaseSeq) = c at hout ⊢
      cases hout with
      | ok sched open_ => exact absurd (open_.symm.trans closed) (by simp)
      | failed s sched attempt _ =>
        have hs : s = m.store := by
          cases attempt with
          | refused => rfl
          | durable open_ | lost open_ | kept open_ =>
            exact absurd (open_.symm.trans closed) (by simp)
        refine .tail (quiet_path ?_) (.note _ _ trivial)
        rw [hs]
        constructor <;> rfl
  | ack id cb =>
    simp only [Node.fireDone, Bool.false_eq_true, if_false]
    exact .single (.ackPlain m id true cb kNoQuorum (hsrc id cb rfl) (Or.inr (by decide)))

/-- A lease that failed its quorum is given back. -/
theorem leaseDone_false (q : Nat) (s : QState) (id : JobId) (epoch leaseSeq worker : Nat)
    (state : m.qstates[q]? = some s) (hf : s.fired = false)
    (hdone : s.done = .lease id epoch leaseSeq worker) (qs : List QState)
    (hqs : qs = m.qstates.set q { s with outstanding := s.outstanding - 1, fired := true }) :
    Path (Move t m₀) m
    (({ m with qstates := qs } : Node).leaseDone id epoch leaseSeq worker false) := by
  have hmiss := @Move.miss t m₀ m q s true state (fun _ => rfl)
  rw [← hqs] at hmiss
  unfold Node.leaseDone
  have hsame : ({ m with qstates := qs } : Node).find id = m.find id := rfl
  rw [hsame]
  cases hfind : m.find id with
  | none => exact .head hmiss (.single (.note _ _ trivial))
  | some l =>
    simp only [Bool.false_eq_true, if_false]
    have hout := commit_outcome ({ m with qstates := qs } : Node) (.expire id l.epoch l.leaseSeq)
    generalize ({ m with qstates := qs } : Node).commit (.expire id l.epoch l.leaseSeq) = c
      at hout ⊢
    -- Whether or not the record is logged, the commit is decided with it.
    have hgive : ∀ s' sched, Attempt m.store (.expire id l.epoch l.leaseSeq) s' →
        Path (Move t m₀) m ((({ m with qstates := qs, store := s', sched } : Node).requeueReady id
          (m.now + nackBackoff l.attempts)).emit (.leaseRefused kNoQuorum)) := by
      intro s' sched attempt
      have hun :=
        @Move.unlease t m₀ m id l q s epoch leaseSeq worker s' hfind state hf hdone attempt
      rw [← hqs] at hun
      refine .head hun (.tail (quiet_path ?_) (.note _ _ trivial))
      constructor <;> rfl
    cases hout with
    | ok sched open_ => exact hgive _ sched (.durable open_)
    | failed s' sched attempt closed => exact hgive s' sched attempt

/-- A failed reply of a commit: it is counted, and the last one decides the
    commit negatively. -/
theorem settle_miss (q : Nat) (s : QState) (hm : Sound m) (state : m.qstates[q]? = some s) :
    Path (Move t m₀) m (m.settle q { s with outstanding := s.outstanding - 1 }) := by
  unfold Node.settle
  by_cases hfired : s.fired = true
  · rw [if_pos hfired]
    exact .single (.miss m q s s.fired state id)
  · have hf : s.fired = false := by simpa using hfired
    have hneeded : s.needed = 1 := hm s (List.mem_of_getElem? state) hf
    rw [if_neg hfired, if_neg (by rw [hneeded]; decide)]
    by_cases hlast : s.outstanding - 1 = 0
    · rw [if_pos hlast]
      have hmiss := @Move.miss t m₀ m q s true state (fun _ => rfl)
      change Path (Move t m₀) m (Node.fireDone _ s.done false)
      cases hdone : s.done with
      | ignore =>
        rw [hdone] at hmiss
        exact .single hmiss
      | ack id cb =>
        rw [hdone] at hmiss
        refine .head hmiss (.single (.ackPlain _ id true cb kNoQuorum ?_
          (Or.inr (by decide))))
        exact ackSource_set state rfl _ rfl
      | lease id epoch leaseSeq worker =>
        exact leaseDone_false q s id epoch leaseSeq worker state hf hdone _ (by rw [hdone])
    · rw [if_neg hlast]
      exact .single (.miss m q s s.fired state id)

/-- A reply that is no confirmation. -/
theorem onApplyReply_fail (id : JobId) (slot : Nat) (member : Endpoint) (r : Record) (q : Nat)
    (code : Status) (hm : Sound m) (hcode : code ≠ kCreated) :
    Path (Move t m₀) m (m.onApplyReply id slot member r q code) := by
  unfold Node.onApplyReply
  cases hstate : m.qstates[q]? with
  | none => exact .refl
  | some s =>
    simp only [if_neg hcode]
    split
    · have hres := @resyncJob_spec t m₀ m id
      refine hres.1.trans (settle_miss q s (sound_of_path hres.1 hm) ?_)
      rw [hres.2.1.qstates]
      exact hstate
    · exact settle_miss q s hm hstate

theorem markReplicaOk_emit (id : JobId) (slot : Nat) (e : Event) :
    (m.emit e).markReplicaOk id slot =
      { m with repair := (m.markReplicaOk id slot).repair, events := e :: m.events } := by
  unfold Node.markReplicaOk
  have hl : (m.emit e).repair.lookup id = m.repair.lookup id := rfl
  have hw : (m.emit e).wantedMask id = m.wantedMask id := rfl
  rw [hl, hw]
  cases m.repair.lookup id with
  | none => rfl
  | some mask =>
    simp only
    split <;> rfl

theorem markReplicaOk_repair {m' : Node} (id : JobId) (slot : Nat) (hrepair : m'.repair = m.repair)
    (hfind : m'.find id = m.find id) (hself : m'.self = m.self) :
    (m'.markReplicaOk id slot).repair = (m.markReplicaOk id slot).repair := by
  have hwant : m'.wantedMask id = m.wantedMask id := by
    rw [Node.wantedMask, Node.wantedMask, hfind, hself]
  unfold Node.markReplicaOk
  rw [hrepair, hwant]
  cases m.repair.lookup id with
  | none => exact hrepair
  | some mask =>
    simp only
    split <;> rfl

theorem markReplicaOk_repair_of_ne {id id' : JobId} {slot : Nat} (h : id' ≠ id) :
    (m.markReplicaOk id slot).repair.lookup id' = m.repair.lookup id' := by
  unfold Node.markReplicaOk
  split
  · rfl
  · simp only
    split
    · exact AList.lookup_erase_ne h
    · exact AList.lookup_insert_ne h

/-- A confirmation: an undecided commit is decided positively, and the slot is
    marked. -/
theorem onApplyReply_ok (id : JobId) (slot : Nat) (member : Endpoint) (r : Record) (q : Nat)
    (body : Reply) (hm : Sound m) (hans : Answers t m₀ (.apply id slot member r q) kCreated body)
    (hfirst : m.store = m₀.store) (hsame : m.qstates = m₀.qstates) :
    Path (Move t m₀) m (m.onApplyReply id slot member r q kCreated) := by
  unfold Node.onApplyReply
  cases hstate : m.qstates[q]? with
  | none => exact .refl
  | some s =>
    have hlt : q < m.qstates.length := (List.getElem?_eq_some_iff.mp hstate).1
    -- The code marks first; the two do not touch the same fields.
    have hmark : ∀ m₂ s', m₂.qstates = m.qstates.set q s' → s'.fired = true →
        m₂.repair = m.repair → m₂.store = m.store → m₂.self = m.self →
        Move t m₀ m₂ { m₂ with repair := (m.markReplicaOk id slot).repair } := by
      intro m₂ s' hqs hfired hrepair hstore hself
      have hmove :=
        @Move.mark t m₀ m₂ id slot (.apply member r q body hans) (hstore.trans hfirst) (by
        intro member' r' q' body' happly s₂ hs₂
        cases hans.unique happly
        rw [hqs, List.getElem?_set_self hlt] at hs₂
        rw [← Option.some.inj hs₂]
        exact hfired)
      rwa [markReplicaOk_repair id slot hrepair (by rw [Node.find, Node.find, hstore]) hself]
        at hmove
    have hconf := @Move.confirm t m₀ m id slot member r q s body hans hstate
    simp only [if_true, markReplicaOk_emit]
    unfold Node.settle
    by_cases hfired : s.fired = true
    · simp only [hfired, if_true]
      exact .head hconf (.single (hmark _ _ rfl rfl rfl rfl rfl))
    · have hf : s.fired = false := by simpa using hfired
      have hneeded : s.needed = 1 := hm s (List.mem_of_getElem? hstate) hf
      simp only [hf, Bool.false_eq_true, if_false, hneeded, show (1 : Int) - 1 ≤ 0 by decide,
        if_true]
      rw [hneeded] at hconf
      cases hdone : s.done with
      | ignore =>
        rw [hdone] at hconf
        exact .head hconf (.single (hmark _ _ rfl rfl rfl rfl rfl))
      | ack id' cb =>
        have hcomp := @Move.completed t m₀ m id id' slot member r q s body cb hans hstate hf hdone
          hfirst hsame
        rw [hneeded, hdone] at hcomp
        cases cb <;> exact .head hcomp (.single (hmark _ _ rfl rfl rfl rfl rfl))
      | lease id' epoch leaseSeq worker =>
        simp only [Node.fireDone, Node.leaseDone]
        rw [hdone] at hconf
        cases hfind : m.find id' with
        | none =>
          rw [Node.find] at hfind
          simp only [Node.find, hfind]
          exact .head hconf (.head (hmark _ _ rfl rfl rfl rfl rfl) (.single (.note _ _ trivial)))
        | some j =>
          have hgrant := @Move.grant t m₀ m id id' slot member r q s body epoch leaseSeq
            worker j hans hstate hf hdone hfind hfirst hsame
          rw [hneeded, hdone] at hgrant
          rw [Node.find] at hfind
          simp only [Node.find, hfind, if_true]
          exact .head hgrant (.single (hmark _ _ rfl rfl rfl rfl rfl))

/-- The store may have grown by transition records; the clock and the visibility
    timers are as they were. -/
structure Grew (m m' : Node) : Prop where
  self : m'.self = m.self
  wal : m.store.wal <+: m'.store.wal
  copies : ∀ id j, m.find id = some j → ∃ j', m'.find id = some j' ∧ SameJob j' j
  now : m'.now = m.now
  leaseDeadline : m'.leaseDeadline = m.leaseDeadline

theorem Grew.of_store {m m' : Node} (hself : m'.self = m.self) (hstore : m'.store = m.store)
    (hnow : m'.now = m.now) (hdl : m'.leaseDeadline = m.leaseDeadline) : Grew m m' :=
  ⟨hself, hstore ▸ List.prefix_rfl,
    fun id j h => ⟨j, by rw [Node.find, hstore]; exact h, .refl j⟩, hnow, hdl⟩

theorem Grew.refl (m : Node) : Grew m m :=
  .of_store rfl rfl rfl rfl

/-- Committing a transition record lets the store grow, whatever the disk
    does. -/
theorem commit_grew (m : Node) (r : Record) (hr : r.full = none) : Grew m (m.commit r).1 := by
  have hout := commit_outcome m r
  generalize m.commit r = c at hout ⊢
  cases hout with
  | ok sched open_ =>
    refine ⟨rfl, List.prefix_append _ _, fun id j hj => ?_, rfl, rfl⟩
    change ∃ j', (m.store.table.apply r).find id = some j' ∧ SameJob j' j
    rw [Table.find_apply]
    rw [Node.find] at hj
    by_cases hid : r.jobId = id
    · rw [if_pos hid, hj]
      exact ⟨r.on j, rfl, r.on_same j hr⟩
    · rw [if_neg hid]
      exact ⟨j, hj, .refl j⟩
  | failed s sched attempt closed =>
    cases attempt with
    | durable open_ => exact absurd (open_.symm.trans closed) (by simp)
    | lost | kept => exact ⟨rfl, List.prefix_rfl, fun id j hj => ⟨j, hj, .refl j⟩, rfl, rfl⟩
    | refused => exact .of_store rfl rfl rfl rfl

theorem leaseDone_grew (m : Node) (id : JobId) (epoch leaseSeq worker : Nat) :
    Grew m (m.leaseDone id epoch leaseSeq worker false) ∧
      (m.leaseDone id epoch leaseSeq worker false).qstates = m.qstates := by
  unfold Node.leaseDone
  cases m.find id with
  | none => exact ⟨.of_store rfl rfl rfl rfl, rfl⟩
  | some j =>
    have h := commit_grew m (.expire id j.epoch j.leaseSeq) rfl
    exact ⟨⟨h.self, h.wal, h.copies, h.now, h.leaseDeadline⟩, rfl⟩

theorem fireDone_grew (m : Node) (d : DoneCb) :
    Grew m (m.fireDone d false) ∧ (m.fireDone d false).qstates = m.qstates := by
  cases d with
  | ignore => exact ⟨.refl m, rfl⟩
  | lease id epoch leaseSeq worker => exact leaseDone_grew m id epoch leaseSeq worker
  | ack id cb => cases cb <;> exact ⟨.of_store rfl rfl rfl rfl, rfl⟩

/-- The clock and the visibility timers are as they were. -/
def SameTimers (m m' : Node) : Prop :=
  m'.now = m.now ∧ m'.leaseDeadline = m.leaseDeadline

/-- What the loop of a quorum commit relies on at every request it sends. -/
structure Sending (id : JobId) (r : Record) (d : DoneCb) (l : Job) (me : Endpoint) (q : Nat)
    (m : Node) : Prop where
  sound : Sound m
  name : m.self = me
  committed : Committed m id r
  state : ∃ s, m.qstates[q]? = some s ∧ s.done = d
  copy : ∃ j, m.find id = some j ∧ SameJob j l

theorem Committed.grew {m m' : Node} {id : JobId} {r : Record} (h : Grew m m')
    (hc : Committed m id r) : Committed m' id r := by
  rcases hc with ⟨w, l, hw, hl, ho, ht⟩
  exact ⟨w, l, hw.trans h.wal, hl, ho.trans h.self.symm, ht⟩

theorem Committed.anchored {m m' : Node} {id : JobId} {r : Record} (h : Anchored m m')
    (hc : Committed m id r) : Committed m' id r := by
  rw [Committed, h.store, h.self]
  exact hc

theorem Sending.quiet {id : JobId} {r : Record} {d : DoneCb} {l : Job} {me : Endpoint} {q : Nat}
    {m m' : Node} (h : Sending id r d l me q m) (hq : Anchored m m') :
    Sending id r d l me q m' where
  sound := by rw [Sound, hq.qstates]; exact h.sound
  name := hq.self.trans h.name
  committed := h.committed.anchored hq
  state := by rw [hq.qstates]; exact h.state
  copy := by rw [hq.find]; exact h.copy

/-- A refused send is counted as a failed reply, inside the loop. -/
theorem Sending.busy {id : JobId} {r : Record} {d : DoneCb} {l : Job} {me : Endpoint} {q : Nat}
    {m : Node} (h : Sending id r d l me q m) (slot : Nat) (member : Endpoint) :
    Path (Move t m₀) m (m.onApplyReply id slot member r q kBusy) ∧
      Sending id r d l me q (m.onApplyReply id slot member r q kBusy) ∧
      Grew m (m.onApplyReply id slot member r q kBusy) := by
  have hpath := @onApplyReply_fail t m₀ m id slot member r q kBusy h.sound (by decide)
  refine ⟨hpath, ?_⟩
  rcases h.state with ⟨s, hs, hd⟩
  have hlt : q < m.qstates.length := (List.getElem?_eq_some_iff.mp hs).1
  -- Whatever the count decides, the counters keep their callback and the store only grows.
  have hafter : ∃ s', s'.done = d ∧ Grew m (m.onApplyReply id slot member r q kBusy) ∧
      (m.onApplyReply id slot member r q kBusy).qstates = m.qstates.set q s' := by
    unfold Node.onApplyReply
    rw [hs]
    simp only [if_neg (show ¬ kBusy = kCreated by decide),
      if_neg (show ¬ kBusy = kStaleEpoch by decide)]
    unfold Node.settle
    by_cases hfired : s.fired = true
    · rw [if_pos hfired]
      exact ⟨{ s with outstanding := s.outstanding - 1 }, hd, .of_store rfl rfl rfl rfl, rfl⟩
    · rw [if_neg hfired]
      have hneeded : s.needed = 1 :=
        h.sound s (List.mem_of_getElem? hs) (by simpa using hfired)
      rw [if_neg (by rw [hneeded]; decide)]
      by_cases hlast : s.outstanding - 1 = 0
      · rw [if_pos hlast]
        have hfire := fireDone_grew ({ m with
          qstates := m.qstates.set q
            { s with outstanding := s.outstanding - 1, fired := true } } : Node) s.done
        exact ⟨{ s with outstanding := s.outstanding - 1, fired := true }, hd,
          ⟨hfire.1.self, hfire.1.wal, hfire.1.copies, hfire.1.now, hfire.1.leaseDeadline⟩, hfire.2⟩
      · rw [if_neg hlast]
        exact ⟨{ s with outstanding := s.outstanding - 1 }, hd, .of_store rfl rfl rfl rfl, rfl⟩
  rcases hafter with ⟨s', hd', hgrew, hqs⟩
  refine ⟨⟨sound_of_path hpath h.sound, hgrew.self.trans h.name, h.committed.grew hgrew,
    ⟨s', ?_, hd'⟩, ?_⟩, hgrew⟩
  · rw [hqs]
    exact List.getElem?_set_self hlt
  · rcases h.copy with ⟨j, hj, hsame⟩
    rcases hgrew.copies id j hj with ⟨j', hj', hsame'⟩
    exact ⟨j', hj', hsame'.trans hsame⟩

/-- The requests of a quorum commit go out one by one; the timers stand. -/
theorem applies_spec {id : JobId} {r : Record} {d : DoneCb} {q : Nat} (l : Job) (me : Endpoint)
    (hcarries : d.carries r) (xs : List (Nat × Endpoint)) (hxs : ∀ s ∈ xs, s ∈ l.peers me)
    (h : Sending id r d l me q m) :
    Path (Move t m₀) m (xs.foldl (fun n s =>
        n.call s.2 (.apply r) (.apply id s.1 s.2 r q)
          (fun n => n.onApplyReply id s.1 s.2 r q kBusy)) m) ∧
      SameTimers m (xs.foldl (fun n s =>
        n.call s.2 (.apply r) (.apply id s.1 s.2 r q)
          (fun n => n.onApplyReply id s.1 s.2 r q kBusy)) m) := by
  have hloop := Path.foldl (R := Move t m₀)
    (P := fun m' => Sending id r d l me q m' ∧ SameTimers m m')
    (fun n s => n.call s.2 (.apply r) (.apply id s.1 s.2 r q)
      (fun n => n.onApplyReply id s.1 s.2 r q kBusy)) xs (fun m' s hs hm' => ?_) m ⟨h, rfl, rfl⟩
  · exact ⟨hloop.1, hloop.2.2⟩
  rcases hm' with ⟨hm', htimers⟩
  constructor
  · refine call_path _ _ _ _ ?_ (fun m'' hq => ((hm'.quiet hq.anchored).busy s.1 s.2).1)
    rcases hm'.state with ⟨qs, hqs, hd⟩
    rcases hm'.copy with ⟨j, hj, hsame⟩
    refine .apply id s.1 s.2 j r q qs hj ?_ hm'.committed hqs (hd ▸ hcarries)
    rw [hm'.name, hsame.peers]
    exact hxs s hs
  · unfold Node.call
    split
    · have hq := hm'.quiet (quiet_refused m').anchored
      have hbusy := @Sending.busy t m₀ _ _ _ _ _ _ _ hq s.1 s.2
      exact ⟨hbusy.2.1, hbusy.2.2.now.trans htimers.1, hbusy.2.2.leaseDeadline.trans htimers.2⟩
    · exact ⟨hm'.quiet ⟨rfl, rfl, rfl, rfl⟩, htimers⟩

/-- A transition of the owner: logged, marked unconfirmed, and sent to every
    peer; decided at once where there is none. One without a callback leaves
    the timers alone. -/
theorem quorumCommit_spec (id : JobId) (l : Job) (r : Record) (d : DoneCb) (hm : Sound m)
    (hfind : m.find id = some l) (howned : l.owner = m.self) (hbegins : Begins t m₀ m id l r d) :
    Path (Move t m₀) m (m.quorumCommit id r d) ∧
      (d = .ignore → SameTimers m (m.quorumCommit id r d)) := by
  have htrans := hbegins.transition
  have hsame := r.on_same l htrans.full
  unfold Node.quorumCommit
  have hout := commit_outcome m r
  generalize m.commit r = c at hout ⊢
  cases hout with
  | failed s sched attempt closed =>
    simp only [if_true]
    constructor
    · refine (spoil_path s sched (.begin_ id l r d hfind howned hbegins) htrans.not_submit
        (hbegins.starts hfind howned) attempt closed).trans (fireDone_closed d closed ?_)
      rintro id' cb rfl
      cases hbegins with
      | done epoch leaseSeq _ acks => exact Or.inl ⟨epoch, leaseSeq, true, acks⟩
    · rintro rfl
      exact ⟨rfl, rfl⟩
  | ok sched open_ =>
    have hafter : ({ m with store := m.store.append r, sched } : Node).find id = some (r.on l) :=
      find_append_of_found m.store htrans.jobId hfind
    simp only [Bool.true_eq_false, if_false, hafter, hsame.peers]
    by_cases hpeers : l.peers m.self = []
    · -- No peer: the callback runs before anything is sent.
      simp only [hpeers, List.foldl_nil, Node.trackQuorum, if_true]
      cases d with
      | ignore =>
        refine ⟨.head (.beginAlone m id l r hfind howned hbegins open_ hpeers) (quiet_path ?_),
          fun _ => ⟨rfl, rfl⟩⟩
        constructor <;> rfl
      | ack id' cb =>
        have hid : id' = id := by cases hbegins; rfl
        subst hid
        refine ⟨.head (.ackAlone m id' l r cb hfind howned hbegins open_ hpeers)
          (quiet_path ?_), fun h => by cases h⟩
        cases cb <;> constructor <;> rfl
      | lease id' epoch leaseSeq worker =>
        have hid : id' = id := by cases hbegins; rfl
        subst hid
        simp only [Node.fireDone, Node.leaseDone]
        have hafter' : ({ m with
            store := m.store.append r
            sched
            repair := m.repair.insert id' 0 } : Node).find id' = some (r.on l) := hafter
        simp only [hafter', if_true, hsame.visibilityMs]
        refine ⟨.head (.grantAlone m id' l r epoch leaseSeq worker hfind howned hbegins open_
          hpeers) (quiet_path ?_), fun h => by cases h⟩
        constructor <;> rfl
    · simp only [Node.trackQuorum, if_neg hpeers]
      have hsend := @applies_spec t m₀ ({ m with
          store := m.store.append r
          sched
          repair := m.repair.insert id 0
          qstates := m.qstates ++
            [{ done := d, needed := 1, outstanding := (l.peers m.self).length, fired := false }] } :
          Node) id r d m.qstates.length l m.self hbegins.carries _ (fun s hs => hs) ?_
      · refine ⟨.head (.begin_ m id l r d hfind howned hbegins open_ hpeers)
          ((quiet_path ?_).trans hsend.1), fun _ => hsend.2⟩
        constructor <;> rfl
      · constructor
        · intro x hx hf
          rcases List.mem_append.mp hx with hold | hnew
          · exact hm x hold hf
          · rw [List.mem_singleton.mp hnew]
        · rfl
        · exact ⟨m.store.wal, l, List.prefix_rfl, by rw [← m.store.replayed]; exact hfind, howned,
            htrans⟩
        · exact ⟨_, List.getElem?_concat_length, rfl⟩
        · exact ⟨r.on l, hafter, hsame⟩

theorem handleApply_path (ctx : ReqCtx) (r : Record) (hq : Quiet m₀ m) (ht : t.ctx = some ctx)
    (ha : ctx.asked = .apply r) : Path (Move t m₀) m (m.handleApply ctx r) := by
  unfold Node.handleApply
  cases hfence : r.fence with
  | none => exact .single (.plain m ctx kInvalid ht (Or.inl (by decide)))
  | some epoch =>
    simp only
    cases hfind : m.find r.jobId with
    | none => exact .single (.plain m ctx kUnknownJob ht (Or.inl (by decide)))
    | some j =>
      simp only
      split
      · exact .single (.plain m ctx kStaleEpoch ht (Or.inl (by decide)))
      · rename_i hepoch
        split
        · exact .single (.plain m ctx kNotOwner ht (Or.inl (by decide)))
        · rename_i howner
          refine serve_path ctx r (.apply r epoch j ht ha hfence hfind (Nat.le_of_not_lt hepoch)
            ?_ hq.store) ht
          by_cases hsrc : ctx.src = j.owner
          · exact Or.inl hsrc
          · right
            by_contra hk
            exact howner ⟨hsrc, by simpa using hk⟩

/-- The scan picks an owned ready copy. -/
theorem scanReady_some (m : Node) (k : Nat) (queue : List JobId) (j : Job)
    (h : (m.scanReady k queue).1 = some j) :
    m.find j.id = some j ∧ j.state = .ready ∧ j.owner = m.self := by
  induction k generalizing queue with
  | zero => simp [Node.scanReady] at h
  | succ k ih =>
    cases queue with
    | nil => simp [Node.scanReady] at h
    | cons id queue =>
      unfold Node.scanReady at h
      cases hfind : m.find id with
      | none =>
        simp only [hfind] at h
        exact ih queue h
      | some j' =>
        simp only [hfind] at h
        split at h
        · exact ih queue h
        · rename_i hok
          have hj' : m.find j'.id = some j' ∧ j'.state = .ready ∧ j'.owner = m.self := by
            rw [m.store.find_id hfind]
            exact ⟨hfind, by by_contra hs; exact hok (Or.inl hs),
              by by_contra ho; exact hok (Or.inr ho)⟩
          split at h
          · exact Option.some.inj h ▸ hj'
          · split at h
            · exact ih _ h
            · exact Option.some.inj h ▸ hj'

theorem leaseJob_path (j : Job) (worker : Nat) (hm : Sound m) (ht : t = .input (.lease worker))
    (hfirst : m.store = m₀.store) (hfind : m.find j.id = some j) (hready : j.state = .ready)
    (howned : j.owner = m.self) : Path (Move t m₀) m (m.leaseJob j worker) := by
  unfold Node.leaseJob
  split
  · refine .tail (quiet_path ?_) (.note _ _ trivial)
    constructor <;> rfl
  · simp only
    split
    · rename_i hused
      exact .tail (quorumCommit_spec j.id j _ .ignore hm hfind howned (.exhausted hready hused)).1
        (.note _ _ trivial)
    · rename_i hwithin
      have hq : Quiet m { m with notBefore := m.notBefore.erase j.id } := by
        constructor <;> rfl
      refine (quiet_path hq).trans (quorumCommit_spec j.id j _ _ ?_ ?_ ?_ ?_).1
      · exact hm
      · exact hfind
      · exact howned
      · exact .lease worker ht hready (Nat.le_of_not_lt hwithin) hfirst

theorem lease_path (worker : Nat) (hm : Sound m) (hq : Quiet m₀ m)
    (ht : t = .input (.lease worker)) : Path (Move t m₀) m (m.lease worker) := by
  unfold Node.lease
  split
  · exact .single (.note m _ trivial)
  · have hq' : Quiet m { m with ready := (m.scanReady m.ready.length m.ready).2 } := by
      constructor <;> rfl
    simp only
    refine (quiet_path hq').trans ?_
    cases hscan : (m.scanReady m.ready.length m.ready).1 with
    | none => exact .single (.note _ _ trivial)
    | some j =>
      rcases scanReady_some m _ _ j hscan with ⟨hfind, hready, howned⟩
      exact leaseJob_path j worker hm ht hq.store hfind hready howned

end Lease

end Tautq
