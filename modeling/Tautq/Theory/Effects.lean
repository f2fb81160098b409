import Tautq.Theory.React

/-!
# What a Move Leaves Behind

Forty moves are too many to look at in every proof. This module says once what
a move can do to the parts of a node that other nodes and clients see: the
store, the outbox, the reported events, the incarnation. Logs, outboxes and
events only get longer, and each addition comes with the reason the code had
for it.

## Main definitions

* `Grows`: What a node never takes back.
* `StoreStep`: What a move does to the store.
* `Sends`, `Reports`: What a move adds to the outbox and the events, and why.

## Theorems

* `Move.store_step`: Every change of the store is one of four.
* `Move.log_cases`: The log stays, or gets one record with a reason.
* `Move.adds`: Every packet and every event has a reason.
* `Move.grows`: A move takes nothing back.
-/

namespace Tautq

open Status

/-! ### What only grows -/

/-- What a node never takes back: its name and configuration, the records it
    logged, the packets it sent, the events it reported, the incarnations it
    had. -/
structure Grows (m m' : Node) : Prop where
  self : m'.self = m.self
  cfg : m'.cfg = m.cfg
  wal : m.store.wal <+: m'.store.wal
  log : m.store.log <+: m'.store.log
  outbox : m.outbox <+: m'.outbox
  events : m.events <:+ m'.events
  boots : (m.boot :: m.boots) <:+ (m'.boot :: m'.boots)

namespace Grows

theorem refl (m : Node) : Grows m m :=
  ⟨rfl, rfl, List.prefix_rfl, List.prefix_rfl, List.prefix_rfl, List.suffix_rfl, List.suffix_rfl⟩

theorem trans {m₁ m₂ m₃ : Node} (h : Grows m₁ m₂) (h' : Grows m₂ m₃) : Grows m₁ m₃ :=
  ⟨h'.self.trans h.self, h'.cfg.trans h.cfg, h.wal.trans h'.wal, h.log.trans h'.log,
    h.outbox.trans h'.outbox, h.events.trans h'.events, h.boots.trans h'.boots⟩

end Grows

/-! ### What a move does to the store -/

namespace Store

theorem log_append (s : Store) (r : Record) (h : s.failed = false) :
    (s.append r).log = s.log ++ [r] := by
  simp only [log, append, s.settled h, Option.toList_none, List.append_nil]

theorem log_fail (s : Store) (limbo : Option Record) (h : s.failed = false) :
    (s.fail limbo).log = s.log ++ limbo.toList := by
  simp only [log, fail, s.settled h, Option.toList_none, List.append_nil]

theorem log_reopen (s : Store) : s.reopen.log = s.log := by
  simp only [log, reopen, Option.toList_none, List.append_nil]

theorem wal_prefix_log (s : Store) : s.wal <+: s.log :=
  List.prefix_append _ _

/-- What a compaction leaves as it was. -/
theorem compact_eq (s : Store) (d : Disk) : (s.compact d).table = s.table ∧
    (s.compact d).wal = s.wal ∧ (s.compact d).limbo = s.limbo := by
  unfold compact
  split
  · exact ⟨rfl, rfl, rfl⟩
  · have hlimbo : s.limbo = none := s.settled (by simpa using ‹¬ s.failed = true›)
    cases d with
    | durable => exact ⟨rfl, rfl, rfl⟩
    | lost | kept => exact ⟨rfl, rfl, hlimbo.symm⟩

theorem compact_failed (s : Store) (d : Disk) (h : s.failed = true) :
    (s.compact d).failed = true := by
  unfold compact
  rwa [if_pos h]

theorem log_compact (s : Store) (d : Disk) : (s.compact d).log = s.log := by
  rw [log, (s.compact_eq d).2.1, (s.compact_eq d).2.2, log]

/-- While the log works, it has the copies of the table. -/
theorem find_log {s : Store} (h : s.failed = false) (id : JobId) :
    (replay s.log).find id = s.table.find id := by
  rw [log, s.settled h, Option.toList_none, List.append_nil, s.replayed]

theorem find_reopen (s : Store) (id : JobId) : s.reopen.table.find id = (replay s.log).find id :=
  replay_congr s.filed s.limbo.toList id

end Store

theorem Node.held_of_find {n : Node} {id : JobId} {j : Job} (h : n.find id = some j) :
    Held n.store.log id j := by
  rw [Node.find, n.store.replayed] at h
  exact (held_last h).mono n.store.wal_prefix_log

theorem Node.find_congr {m m' : Node} (h : m'.store = m.store) (id : JobId) :
    m'.find id = m.find id := by
  rw [Node.find, h, Node.find]

/-- A copy found in a store is found by every node with that store. -/
theorem Node.find_of_store {m m' : Node} {id : JobId} {l : Job} (h : m.store = m'.store)
    (found : m.find id = some l) : m'.find id = some l :=
  (find_congr h id).symm.trans found

/-- The copy an appended record leaves. -/
theorem Node.find_append {m m' : Node} {id : JobId} {l : Job} {r : Record} (h : m.find id = some l)
    (hs : m'.store = m.store.append r) (hid : r.jobId = id) : m'.find id = some (r.on l) := by
  have hfind := find_apply_of_some r h
  rw [if_pos hid] at hfind
  rw [Node.find, hs]
  exact hfind

/-- What a move does to the store: nothing, one record appended, one record
    that may be in the file, the file compacted, or the file replayed. -/
inductive StoreStep (t : Trigger) (m₀ m : Node) : Store → Prop where
  | same : StoreStep t m₀ m m.store
  | append (r : Record) (writes : Writes t m₀ m r) (open_ : m.store.failed = false) :
      StoreStep t m₀ m (m.store.append r)
  | fail (r : Record) (limbo : Option Record) (writes : Writes t m₀ m r)
      (h : limbo = none ∨ limbo = some r) (open_ : m.store.failed = false) :
      StoreStep t m₀ m (m.store.fail limbo)
  | compact (d : Disk) : StoreStep t m₀ m (m.store.compact d)
  | reopen (boot : Nat) (trigger : t = .input (.restart boot)) (first : m.store = m₀.store) :
      StoreStep t m₀ m m.store.reopen

section Moves

variable {t : Trigger} {m₀ m m' : Node}

theorem StoreStep.of_attempt {r : Record} {s : Store} (hw : Writes t m₀ m r)
    (h : Attempt m.store r s) : StoreStep t m₀ m s := by
  cases h with
  | durable open_ => exact .append r hw open_
  | lost open_ => exact .fail r none hw (Or.inl rfl) open_
  | kept open_ => exact .fail r (some r) hw (Or.inr rfl) open_
  | refused => exact .same

@[simp] theorem submitCb_store (cb : SubmitCb) (st : Status) (id : JobId) :
    (m.submitCb cb st id).store = m.store := by
  cases cb <;> rfl

@[simp] theorem ackCb_store (cb : AckCb) (id : JobId) (success : Bool) (st : Status) :
    (m.ackCb cb id success st).store = m.store := by
  cases cb <;> rfl

theorem Move.store_step (h : Move t m₀ m m') : StoreStep t m₀ m m'.store := by
  cases h with
  | quiet _ h =>
    rw [h.store]
    exact .same
  | serve ctx r body serves open_ => exact .append r (.serve ctx r body serves) open_
  | adopt r writes _ open_ => exact .append r writes open_
  | spoil r limbo writes _ _ h open_ => exact .fail r limbo writes h open_
  | mint p cb writes _ open_ => exact .append _ writes open_
  | mintAlone p cb ps writes _ open_ =>
    rw [submitCb_store]
    exact .append _ writes open_
  | mintFail p s writes h => exact .of_attempt writes h
  | duplicate | refuse | submitted =>
    rw [submitCb_store]
    exact .same
  | begin_ _ _ r _ found owned begins open_ | beginAlone _ _ r found owned begins open_
  | grantAlone _ _ r _ _ _ found owned begins open_ =>
    exact .append r (.begin_ _ _ r _ found owned begins) open_
  | ackAlone id l r cb found owned begins open_ =>
    rw [ackCb_store]
    exact .append r (.begin_ id l r _ found owned begins) open_
  | completed | ackDone | ackPlain =>
    rw [ackCb_store]
    exact .same
  | unlease id l q s epoch leaseSeq worker store found state pending isLease attempt =>
    exact .of_attempt (.unlease id l q s epoch leaseSeq worker found state pending isLease) attempt
  | seize id l found other active unclaimed open_ trigger admitting =>
    exact .append _ (.seize id l found other active unclaimed trigger admitting) open_
  | finalize id st l j s deadlines standing ripe found owned none_ some_ =>
    change StoreStep t m₀ m s
    cases hinh : Node.inherits id st l with
    | none =>
      rw [none_ hinh]
      exact .same
    | some r => exact .of_attempt (.inherit id st l r ripe found owned hinh) (some_ r hinh)
  | compact d => exact .compact d
  | reboot boot _ _ trigger _ _ _ stored => exact .reopen boot trigger stored
  | _ => exact .same

theorem Attempt.failed_mono {s s' : Store} {r : Record} (h : Attempt s r s')
    (hf : s.failed = true) : s'.failed = true := by
  cases h with
  | durable open_ | lost open_ | kept open_ => exact absurd (open_.symm.trans hf) (by simp)
  | refused => exact hf

/-- Nothing but a restart puts a stopped log back to work. -/
theorem Move.failed_mono (h : Move t m₀ m m') (hf : m.store.failed = true) :
    m'.store.failed = true ∨ ∃ boot, t = .input (.restart boot) := by
  have hclash : ∀ {P : Prop}, m.store.failed = false → P := fun h =>
    absurd (h.symm.trans hf) (by simp)
  cases h with
  | quiet _ h => exact Or.inl (by rw [h.store]; exact hf)
  | serve _ _ _ _ open_ | adopt _ _ _ open_ | mint _ _ _ _ open_ | begin_ _ _ _ _ _ _ _ open_
  | beginAlone _ _ _ _ _ _ open_ | seize _ _ _ _ _ _ open_ | grantAlone _ _ _ _ _ _ _ _ _ open_
  | spoil _ _ _ _ _ _ open_ => exact hclash open_
  | mintAlone _ _ _ _ _ open_ => exact hclash open_
  | ackAlone _ _ _ _ _ _ _ open_ => exact hclash open_
  | mintFail _ _ _ _ failed => exact Or.inl failed
  | duplicate | refuse | submitted =>
    rw [submitCb_store]
    exact Or.inl hf
  | completed | ackDone | ackPlain =>
    rw [ackCb_store]
    exact Or.inl hf
  | finalize id st l j s deadlines standing ripe found owned none_ some_ =>
    cases hinh : Node.inherits id st l with
    | none => exact Or.inl (by rw [none_ hinh]; exact hf)
    | some r => exact Or.inl (some_ r hinh |>.failed_mono hf)
  | unlease _ _ _ _ _ _ _ _ _ _ _ _ attempt => exact Or.inl (attempt.failed_mono hf)
  | compact d => exact Or.inl (m.store.compact_failed d hf)
  | reboot boot _ _ trigger => exact Or.inr ⟨boot, trigger⟩
  | _ => exact Or.inl hf

/-- The log stays as it is, or gets one record there is a reason for. -/
theorem StoreStep.log_cases {s : Store} (h : StoreStep t m₀ m s) :
    s.log = m.store.log ∨
      ∃ r, Writes t m₀ m r ∧ m.store.failed = false ∧ s.log = m.store.log ++ [r] := by
  cases h with
  | same => exact Or.inl rfl
  | append r writes open_ => exact Or.inr ⟨r, writes, open_, m.store.log_append r open_⟩
  | fail r limbo writes h open_ =>
    rcases h with rfl | rfl
    · left
      rw [m.store.log_fail none open_, Option.toList_none, List.append_nil]
    · exact Or.inr ⟨r, writes, open_, m.store.log_fail (some r) open_⟩
  | compact d => exact Or.inl (m.store.log_compact d)
  | reopen => exact Or.inl m.store.log_reopen

theorem Move.log_cases (h : Move t m₀ m m') :
    m'.store.log = m.store.log ∨
      ∃ r, Writes t m₀ m r ∧ m.store.failed = false ∧ m'.store.log = m.store.log ++ [r] :=
  h.store_step.log_cases

/-- A record of the log was there before, or has just been written. -/
theorem Move.record_cases (h : Move t m₀ m m') {r : Record} (hr : r ∈ m'.store.log) :
    r ∈ m.store.log ∨ Writes t m₀ m r := by
  rcases h.log_cases with heq | ⟨r', hw, _, heq⟩
  · exact Or.inl (heq ▸ hr)
  · rw [heq, List.mem_append, List.mem_singleton] at hr
    rcases hr with hold | rfl
    · exact Or.inl hold
    · exact Or.inr hw

/-- What holds of every copy held before, of every full copy written and of every
    copy a transition leaves, holds of every copy held after a move. -/
theorem Move.held_rule {P : JobId → Job → Prop} (h : Move t m₀ m m')
    (hold : ∀ id j, Held m.store.log id j → P id j)
    (hfull : ∀ r j, Writes t m₀ m r → r ∈ m'.store.log → r.full = some j →
      Held m'.store.log j.id j → P j.id j)
    (hon : ∀ r l, Writes t m₀ m r → r ∈ m'.store.log → r.full = none →
      m.find r.jobId = some l → Held m'.store.log r.jobId (r.on l) → P r.jobId (r.on l)) :
    ∀ id j, Held m'.store.log id j → P id j := by
  intro id j hj
  rcases h.log_cases with heq | ⟨r, hw, open_, heq⟩
  · exact hold id j (heq ▸ hj)
  have hmem : r ∈ m'.store.log := by
    rw [heq]
    exact List.mem_append_right _ (List.mem_singleton.mpr rfl)
  have hj' := hj
  rw [heq] at hj'
  rcases held_snoc_cases hj' with hprev | ⟨rfl, heff⟩
  · exact hold id j hprev
  rw [Store.find_log open_] at heff
  -- What the record leaves: the copy it carries, or what it makes of the stored one.
  cases hr : r.full with
  | some j₁ =>
    have hid := Record.full_jobId hr
    have hnew : j = j₁ → P r.jobId j := by
      rintro rfl
      rw [← hid] at hj ⊢
      exact hfull r j hw hmem hr hj
    cases hfind : m.store.table.find r.jobId with
    | none =>
      rw [hfind, Record.effect, hr, Option.some.injEq] at heff
      exact hnew heff.symm
    | some l =>
      rw [hfind, Record.effect, Option.some.injEq] at heff
      rcases r.on_full l hr with hon' | hon'
      · exact hnew (heff.symm.trans hon')
      · rw [← heff, hon']
        exact hold r.jobId l (Node.held_of_find hfind)
  | none =>
    cases hfind : m.store.table.find r.jobId with
    | none =>
      rw [hfind, Record.effect, hr] at heff
      cases heff
    | some l =>
      rw [hfind, Record.effect, Option.some.injEq] at heff
      rw [← heff] at hj ⊢
      exact hon r l hw hmem hr hfind hj

theorem Move.log_prefix (h : Move t m₀ m m') : m.store.log <+: m'.store.log := by
  rcases h.log_cases with heq | ⟨r, _, _, heq⟩
  · rw [heq]
  · rw [heq]
    exact List.prefix_append _ _

theorem Move.wal_prefix (h : Move t m₀ m m') : m.store.wal <+: m'.store.wal := by
  have hs := h.store_step
  generalize m'.store = s at hs
  cases hs with
  | same | fail => exact List.prefix_rfl
  | append => exact List.prefix_append _ _
  | compact d => rw [(m.store.compact_eq d).2.1]
  | reopen => exact m.store.wal_prefix_log

/-! ### What a move sends and reports -/

theorem Move.self_eq (h : Move t m₀ m m') : m'.self = m.self ∧ m'.cfg = m.cfg := by
  cases h with
  | quiet _ h => exact ⟨h.self, h.cfg⟩
  | submitted _ ps => cases ps.cb <;> exact ⟨rfl, rfl⟩
  | mintAlone _ cb | duplicate _ cb | refuse _ cb | ackAlone _ _ _ cb | completed _ _ _ _ _ _ _ _ cb
  | ackDone _ _ _ _ _ cb | ackPlain _ _ cb => cases cb <;> exact ⟨rfl, rfl⟩
  | _ => exact ⟨rfl, rfl⟩

end Moves

/-- What a submit callback is told, and why. -/
inductive SubmitTold (t : Trigger) (m₀ m m' : Node) : SubmitCb → Status → JobId → Prop where
  | alone (p : SubmitParams) (cb : SubmitCb) (submits : Submits t m p cb)
      (writes : Writes t m₀ m (.submit (m.mintJob p))) (peers : (m.mintJob p).peers m.self = [])
      (stored : m'.store = m.store.append (.submit (m.mintJob p))) :
      SubmitTold t m₀ m m' cb kCreated (m.mintJob p).id
  | duplicate (p : SubmitParams) (cb : SubmitCb) (j : Job) (submits : Submits t m p cb)
      (found : m.store.table.findByIdem p.idemKey = some j) (first : m.store = m₀.store) :
      SubmitTold t m₀ m m' cb kDuplicate j.id
  | refuse (p : SubmitParams) (cb : SubmitCb) (submits : Submits t m₀ p cb) (id : JobId) :
      SubmitTold t m₀ m m' cb kNoQuorum id
  | answered (id : JobId) (ps : PendingSubmit) (st : Status)
      (found : m.pendingSubmits.lookup id = some ps)
      (h : (st = kCreated ∧ ps.needed ≤ 0) ∨ st = kNoQuorum) : SubmitTold t m₀ m m' ps.cb st id

/-- What an ack callback is told, and why. -/
inductive AckTold (t : Trigger) (m₀ m m' : Node) : AckCb → JobId → Bool → Status → Prop where
  | alone (id : JobId) (l : Job) (r : Record) (cb : AckCb) (found : m.find id = some l)
      (owned : l.owner = m.self) (begins : Begins t m₀ m id l r (.ack id cb))
      (peers : l.peers m.self = []) (stored : m'.store = m.store.append r) :
      AckTold t m₀ m m' cb id true kCreated
  | quorum (id id' : JobId) (slot : Nat) (member : Endpoint) (r : Record) (q : Nat) (s : QState)
      (body : Reply) (cb : AckCb) (answers : Answers t m₀ (.apply id slot member r q) kCreated body)
      (state : m.qstates[q]? = some s) (pending : s.fired = false) (isAck : s.done = .ack id' cb)
      (first : m.store = m₀.store) (same : m.qstates = m₀.qstates) :
      AckTold t m₀ m m' cb id' true kCreated
  | done (id : JobId) (j : Job) (epoch leaseSeq : Nat) (success : Bool) (cb : AckCb)
      (acks : Acks t id epoch leaseSeq success cb) (found : m.find id = some j)
      (owned : j.owner = m.self) (done : j.state = .done) (confirmed : id ∉ m.repair) :
      AckTold t m₀ m m' cb id success kCreated
  | plain (id : JobId) (success : Bool) (cb : AckCb) (st : Status) (source : AckSource t m id cb)
      (h : success = false ∨ st ≠ kCreated) : AckTold t m₀ m m' cb id success st

/-- What a move sends, and why. -/
inductive Sends (t : Trigger) (m₀ m m' : Node) : Packet → Prop where
  | ask (dst : Endpoint) (body : Request) (k : Cont) (asks : Asks t m dst body k)
      (after : m' = m.sent dst body k) :
      Sends t m₀ m m' (.request m.self dst m.boot m.nextReq body)
  | plain (ctx : ReqCtx) (st : Status) (trigger : t.ctx = some ctx) (h : Plain ctx st) :
      Sends t m₀ m m' (.response m.self ctx.src ctx.boot ctx.reqId ctx.asked st .empty)
  | show_ (ctx : ReqCtx) (id : JobId) (j : Job) (trigger : t.ctx = some ctx)
      (asked : ctx.asked = .resync id ∨ ctx.asked = .fwdStatus id) (found : m.find id = some j) :
      Sends t m₀ m m' (.response m.self ctx.src ctx.boot ctx.reqId ctx.asked kCreated (.job j))
  | regrant (ctx : ReqCtx) (id : JobId) (j : Job) (trigger : t.ctx = some ctx)
      (asked : ctx.asked = .claim id j.epoch ctx.src) (found : m.find id = some j)
      (member : ctx.src ∈ j.replicas.toList) (owner : j.owner = ctx.src)
      (same : m'.store = m.store) :
      Sends t m₀ m m' (.response m.self ctx.src ctx.boot ctx.reqId ctx.asked kCreated
        (.claimInfo j.state j.leaseSeq))
  | serve (ctx : ReqCtx) (r : Record) (body : Reply) (serves : Serves t m₀ m ctx r body)
      (open_ : m.store.failed = false) (stored : m'.store = m.store.append r) :
      Sends t m₀ m m' (.response m.self ctx.src ctx.boot ctx.reqId ctx.asked kCreated body)
  | submit (ctx : ReqCtx) (st : Status) (id : JobId)
      (why : SubmitTold t m₀ m m' (.reply ctx) st id) :
      Sends t m₀ m m' (.response m.self ctx.src ctx.boot ctx.reqId ctx.asked st (.jobId id))
  | ack (ctx : ReqCtx) (id : JobId) (success : Bool) (st : Status)
      (why : AckTold t m₀ m m' (.reply ctx) id success st) :
      Sends t m₀ m m' (.response m.self ctx.src ctx.boot ctx.reqId ctx.asked st .empty)

/-- What a move reports, and why. -/
inductive Reports (t : Trigger) (m₀ m m' : Node) : Event → Prop where
  | idle (e : Event) (h : e.idle) : Reports t m₀ m m' e
  | drained (draining : m.draining = true)
      (none_ : ∀ id j, m.find id = some j → j.owner = m.self → j.terminal = true) :
      Reports t m₀ m m' .drained
  | submit (key : Bytes) (st : Status) (id : JobId)
      (why : SubmitTold t m₀ m m' (.client key) st id) :
      Reports t m₀ m m' (.submitAnswered key st id)
  | relay (key : Bytes) (st : Status) (body : Reply)
      (answers : Answers t m₀ (.fwdSubmit key) st body) :
      Reports t m₀ m m' (.submitAnswered key st body.asJobId)
  | grantAlone (id : JobId) (l : Job) (r : Record) (epoch leaseSeq worker : Nat)
      (found : m.find id = some l) (owned : l.owner = m.self)
      (begins : Begins t m₀ m id l r (.lease id epoch leaseSeq worker))
      (peers : l.peers m.self = []) (stored : m'.store = m.store.append r) :
      Reports t m₀ m m'
      (.granted (.lease id epoch leaseSeq worker) (Node.grantOf id (r.on l)) m.now)
  | grant (id id' : JobId) (slot : Nat) (member : Endpoint) (r : Record) (q : Nat) (s : QState)
      (body : Reply) (epoch leaseSeq worker : Nat) (j : Job)
      (answers : Answers t m₀ (.apply id slot member r q) kCreated body)
      (state : m.qstates[q]? = some s) (pending : s.fired = false)
      (isLease : s.done = .lease id' epoch leaseSeq worker) (found : m.find id' = some j)
      (first : m.store = m₀.store) (same : m.qstates = m₀.qstates) :
      Reports t m₀ m m' (.granted (.lease id' epoch leaseSeq worker) (Node.grantOf id' j) m.now)
  | applyAcked (id : JobId) (slot : Nat) (member : Endpoint) (r : Record) (q : Nat) (body : Reply)
      (answers : Answers t m₀ (.apply id slot member r q) kCreated body) :
      Reports t m₀ m m' (.applyAcked member r)
  | expire (id : JobId) (j : Job) (deadline : Time)
      (armed : m.leaseDeadline.lookup id = some deadline) (due : deadline ≤ m.now)
      (found : m.find id = some j) (leased : j.state = .leased) (owned : j.owner = m.self) :
      Reports t m₀ m m' (.expired id j.leaseSeq m.now)
  | nack (id : JobId) (j : Job) (epoch leaseSeq : Nat) (cb : AckCb)
      (acks : Acks t id epoch leaseSeq false cb) (found : m.find id = some j)
      (owned : j.owner = m.self) (current : Node.currentLease j epoch leaseSeq = true)
      (first : m.store = m₀.store) : Reports t m₀ m m' (.nacked id epoch leaseSeq m.now)
  | complete (id : JobId) (j : Job) (epoch leaseSeq : Nat) (cb : AckCb)
      (acks : Acks t id epoch leaseSeq true cb) (found : m.find id = some j)
      (owned : j.owner = m.self) (open_ : j.state ≠ .done)
      (accepted : (Node.currentLease j epoch leaseSeq || Node.amnesty j epoch leaseSeq ||
        Node.lateAfterPark j epoch) = true) (first : m.store = m₀.store) :
      Reports t m₀ m m' (.doneStarted id epoch leaseSeq)
  | ownerAck (cb : AckCb) (id : JobId) (success : Bool) (st : Status)
      (why : AckTold t m₀ m m' cb id success st) : Reports t m₀ m m' (.ownerAcked id success st)
  | finalize (id : JobId) (st : ClaimState) (l j : Job) (standing : m.claims.lookup id = some st)
      (ripe : Ripe t m₀ m id st) (found : m.find id = some l) (owned : l.owner = m.self)
      (none_ : Node.inherits id st l = none → m'.store = m.store)
      (some_ : ∀ r, Node.inherits id st l = some r → Attempt m.store r m'.store)
      (after : m'.store.table.find id = some j) : Reports t m₀ m m' (.finalized j)

/-- What a move adds to the outbox and to the events, all of it with a
    reason. -/
structure Adds (t : Trigger) (m₀ m m' : Node) : Prop where
  outbox : m'.outbox = m.outbox ∨ ∃ p, Sends t m₀ m m' p ∧ m'.outbox = m.outbox ++ [p]
  events : ∃ new, m'.events = new ++ m.events ∧ ∀ e ∈ new, Reports t m₀ m m' e

namespace Adds

variable {t : Trigger} {m₀ m m' : Node}

/-- Nothing sent, nothing reported. -/
theorem none (ho : m'.outbox = m.outbox) (he : m'.events = m.events) : Adds t m₀ m m' :=
  ⟨Or.inl ho, [], he, by simp⟩

/-- One event. -/
theorem event (e : Event) (ho : m'.outbox = m.outbox) (he : m'.events = e :: m.events)
    (h : Reports t m₀ m m' e) : Adds t m₀ m m' :=
  ⟨Or.inl ho, [e], he, by simpa using h⟩

/-- One packet. -/
theorem packet (p : Packet) (ho : m'.outbox = m.outbox ++ [p]) (he : m'.events = m.events)
    (h : Sends t m₀ m m' p) : Adds t m₀ m m' :=
  ⟨Or.inr ⟨p, h, ho⟩, [], he, by simp⟩

/-- A submit callback sends its answer or reports it. -/
theorem submitCb (m₁ : Node) (cb : SubmitCb) (st : Status) (id : JobId) (hself : m₁.self = m.self)
    (ho : m₁.outbox = m.outbox) (he : m₁.events = m.events)
    (h : SubmitTold t m₀ m (m₁.submitCb cb st id) cb st id) :
    Adds t m₀ m (m₁.submitCb cb st id) := by
  cases cb with
  | client key => exact .event _ ho (by rw [← he]; rfl) (.submit key st id h)
  | reply ctx => exact .packet _ (by rw [← ho, ← hself]; rfl) he (.submit ctx st id h)

/-- An ack callback reports its answer, and sends it if it was asked to. -/
theorem ackCb (m₁ : Node) (cb : AckCb) (id : JobId) (success : Bool) (st : Status)
    (new : List Event) (hself : m₁.self = m.self) (ho : m₁.outbox = m.outbox)
    (he : m₁.events = new ++ m.events)
    (hnew : ∀ e ∈ new, Reports t m₀ m (m₁.ackCb cb id success st) e)
    (h : AckTold t m₀ m (m₁.ackCb cb id success st) cb id success st) :
    Adds t m₀ m (m₁.ackCb cb id success st) := by
  have hev : (m₁.ackCb cb id success st).events = (.ownerAcked id success st :: new) ++
      m.events := by
    cases cb <;> rw [List.cons_append, ← he] <;> rfl
  have hall : ∀ e ∈ (.ownerAcked id success st :: new : List Event),
      Reports t m₀ m (m₁.ackCb cb id success st) e := by
    intro e hin
    rcases List.mem_cons.mp hin with rfl | hin
    · exact .ownerAck cb id success st h
    · exact hnew e hin
  refine ⟨?_, _, hev, hall⟩
  cases cb with
  | client => exact Or.inl ho
  | reply ctx => exact Or.inr ⟨_, .ack ctx id success st h, by rw [← ho, ← hself]; rfl⟩

end Adds

section Adding

variable {t : Trigger} {m₀ m m' : Node}

theorem Move.adds (h : Move t m₀ m m') : Adds t m₀ m m' := by
  cases h with
  | quiet _ h => exact .none h.outbox h.events
  | note e idle => exact .event e rfl rfl (.idle e idle)
  | drained draining none_ => exact .event _ rfl rfl (.drained draining none_)
  | ask dst body k asks => exact .packet _ rfl rfl (.ask dst body k asks rfl)
  | plain ctx st trigger h => exact .packet _ rfl rfl (.plain ctx st trigger h)
  | show_ ctx id j trigger asked found =>
    exact .packet _ rfl rfl (.show_ ctx id j trigger asked found)
  | regrant ctx id j trigger asked found member owner =>
    exact .packet _ rfl rfl (.regrant ctx id j trigger asked found member owner rfl)
  | serve ctx r body serves open_ => exact .packet _ rfl rfl (.serve ctx r body serves open_ rfl)
  | mintAlone p cb ps writes submits open_ peers =>
    exact .submitCb _ _ _ _ rfl rfl rfl (.alone p cb submits writes peers (submitCb_store _ _ _))
  | duplicate p cb j submits found first =>
    exact .submitCb _ _ _ _ rfl rfl rfl (.duplicate p cb j submits found first)
  | refuse p cb submits id => exact .submitCb _ _ _ _ rfl rfl rfl (.refuse p cb submits id)
  | submitted id ps st found h => exact .submitCb _ _ _ _ rfl rfl rfl (.answered id ps st found h)
  | relay key st body answers => exact .event _ rfl rfl (.relay key st body answers)
  | grantAlone id l r epoch leaseSeq worker found owned begins open_ peers =>
    exact .event _ rfl rfl (.grantAlone id l r epoch leaseSeq worker found owned begins peers rfl)
  | ackAlone id l r cb found owned begins open_ peers =>
    exact .ackCb _ _ _ _ _ [] rfl rfl rfl (by simp)
      (.alone id l r cb found owned begins peers (ackCb_store _ _ _ _))
  | confirm id slot member r q s body answers =>
    exact .event _ rfl rfl (.applyAcked id slot member r q body answers)
  | grant id id' slot member r q s body epoch leaseSeq worker j answers state pending isLease found
      first same =>
    refine ⟨Or.inl rfl, [_, _], rfl, fun e he => ?_⟩
    rcases List.mem_cons.mp he with rfl | he
    · exact .grant id id' slot member r q s body epoch leaseSeq worker j answers state pending
        isLease found first same
    · rw [List.mem_singleton.mp he]
      exact .applyAcked id slot member r q body answers
  | completed id id' slot member r q s body cb answers state pending isAck first same =>
    refine .ackCb _ _ _ _ _ [.applyAcked member r] rfl rfl rfl (fun e he => ?_)
      (.quorum id id' slot member r q s body cb answers state pending isAck first same)
    rw [List.mem_singleton.mp he]
    exact .applyAcked id slot member r q body answers
  | expire id j deadline armed due found leased owned =>
    exact .event _ rfl rfl (.expire id j deadline armed due found leased owned)
  | nack id j epoch leaseSeq cb acks found owned current first =>
    exact .event _ rfl rfl (.nack id j epoch leaseSeq cb acks found owned current first)
  | complete id j epoch leaseSeq cb acks found owned open_ accepted first =>
    exact .event _ rfl rfl
      (.complete id j epoch leaseSeq cb acks found owned open_ accepted first)
  | ackDone id j epoch leaseSeq success cb acks found owned done confirmed =>
    exact .ackCb _ _ _ _ _ [] rfl rfl rfl (by simp)
      (.done id j epoch leaseSeq success cb acks found owned done confirmed)
  | ackPlain id success cb st source h =>
    exact .ackCb _ _ _ _ _ [] rfl rfl rfl (by simp) (.plain id success cb st source h)
  | finalize id st l j s deadlines standing ripe found owned none_ some_ after =>
    exact .event _ rfl rfl (.finalize id st l j standing ripe found owned none_ some_ after)
  | _ => exact .none rfl rfl

/-- A request in the outbox was there before, or is the one being sent. -/
theorem Move.request_cases (h : Move t m₀ m m') {src dst : Endpoint} {boot reqId : Nat}
    {body : Request} (hin : .request src dst boot reqId body ∈ m'.outbox) :
    .request src dst boot reqId body ∈ m.outbox ∨
      (src = m.self ∧ boot = m.boot ∧ reqId = m.nextReq ∧
        ∃ k, Asks t m dst body k ∧ m' = m.sent dst body k) := by
  rcases h.adds.outbox with heq | ⟨p, hp, heq⟩
  · exact Or.inl (heq ▸ hin)
  · rw [heq, List.mem_append, List.mem_singleton] at hin
    rcases hin with hold | hnew
    · exact Or.inl hold
    · subst hnew
      cases hp with
      | ask _ _ k asks after => exact Or.inr ⟨rfl, rfl, rfl, k, asks, after⟩

/-- A response in the outbox was there before, or is the one being sent. -/
theorem Move.response_cases (h : Move t m₀ m m') {src dst : Endpoint} {boot reqId : Nat}
    {asked : Request} {st : Status} {body : Reply}
    (hin : .response src dst boot reqId asked st body ∈ m'.outbox) :
    .response src dst boot reqId asked st body ∈ m.outbox ∨
      Sends t m₀ m m' (.response src dst boot reqId asked st body) := by
  rcases h.adds.outbox with heq | ⟨p, hp, heq⟩
  · exact Or.inl (heq ▸ hin)
  · rw [heq, List.mem_append, List.mem_singleton] at hin
    rcases hin with hold | hnew
    · exact Or.inl hold
    · exact Or.inr (hnew ▸ hp)

/-- An event was reported before, or is being reported. -/
theorem Move.event_cases (h : Move t m₀ m m') {e : Event} (hin : e ∈ m'.events) :
    e ∈ m.events ∨ Reports t m₀ m m' e := by
  rcases h.adds.events with ⟨new, heq, hnew⟩
  rw [heq, List.mem_append] at hin
  rcases hin with hin | hin
  · exact Or.inr (hnew e hin)
  · exact Or.inl hin

theorem Sends.src_eq {p : Packet} (h : Sends t m₀ m m' p) : p.src = m.self := by
  cases h <;> rfl

/-- The incarnations of a node: the current one is replaced only by a
    restart. -/
theorem Move.boots_cases (h : Move t m₀ m m') :
    (m'.boot = m.boot ∧ m'.boots = m.boots) ∨
      ∃ boot, t = .input (.restart boot) ∧ (m.boot = m₀.boot ∧ m.boots = m₀.boots) ∧
        m'.boot = boot ∧ m'.boots = m.boot :: m.boots := by
  cases h with
  | quiet _ h => exact Or.inl ⟨h.boot, h.boots⟩
  | reboot boot repair deadlines trigger first => exact Or.inr ⟨boot, trigger, first, rfl, rfl⟩
  | submitted _ ps => cases ps.cb <;> exact Or.inl ⟨rfl, rfl⟩
  | mintAlone _ cb | duplicate _ cb | refuse _ cb | ackAlone _ _ _ cb | completed _ _ _ _ _ _ _ _ cb
  | ackDone _ _ _ _ _ cb | ackPlain _ _ cb => cases cb <;> exact Or.inl ⟨rfl, rfl⟩
  | _ => exact Or.inl ⟨rfl, rfl⟩

/-- The membership view changes only when it is told to. -/
theorem Move.view_cases (h : Move t m₀ m m') :
    m'.peers = m.peers ∨ ∃ peers, t = .input (.view peers) ∧ m'.peers = peers := by
  cases h with
  | quiet _ h => exact Or.inl h.peers
  | view peers trigger => exact Or.inr ⟨peers, trigger, rfl⟩
  | submitted _ ps => cases ps.cb <;> exact Or.inl rfl
  | mintAlone _ cb | duplicate _ cb | refuse _ cb | ackAlone _ _ _ cb | completed _ _ _ _ _ _ _ _ cb
  | ackDone _ _ _ _ _ cb | ackPlain _ _ cb => cases cb <;> exact Or.inl rfl
  | _ => exact Or.inl rfl

/-- A draining node stays one until it restarts. -/
theorem Move.draining_cases (h : Move t m₀ m m') :
    m'.draining = m.draining ∨ m'.draining = true ∨ ∃ boot, t = .input (.restart boot) := by
  cases h with
  | quiet _ h => exact Or.inl h.draining
  | drain => exact Or.inr (Or.inl rfl)
  | reboot boot repair deadlines trigger => exact Or.inr (Or.inr ⟨boot, trigger⟩)
  | submitted _ ps => cases ps.cb <;> exact Or.inl rfl
  | mintAlone _ cb | duplicate _ cb | refuse _ cb | ackAlone _ _ _ cb | completed _ _ _ _ _ _ _ _ cb
  | ackDone _ _ _ _ _ cb | ackPlain _ _ cb => cases cb <;> exact Or.inl rfl
  | _ => exact Or.inl rfl

theorem Move.grows (h : Move t m₀ m m') : Grows m m' where
  self := h.self_eq.1
  cfg := h.self_eq.2
  wal := h.wal_prefix
  log := h.log_prefix
  outbox := by
    rcases h.adds.outbox with heq | ⟨p, _, heq⟩
    · rw [heq]
    · rw [heq]
      exact List.prefix_append _ _
  events := by
    rcases h.adds.events with ⟨new, heq, _⟩
    rw [heq]
    exact List.suffix_append _ _
  boots := by
    rcases h.boots_cases with ⟨hb, hbs⟩ | ⟨boot, _, _, hb, hbs⟩
    · rw [hb, hbs]
    · rw [hb, hbs]
      exact List.suffix_cons _ _

end Adding

/-! ### What a move does to the bookkeeping -/

section Bookkeeping

variable {t : Trigger} {m₀ m m' : Node}

/-- The calls in flight: one more, one fewer, or none after a restart. -/
inductive CallStep (t : Trigger) (m m' : Node) : Prop where
  | same (calls : m'.calls = m.calls) (next : m.nextReq ≤ m'.nextReq) (boot : m'.boot = m.boot)
  | ask (dst : Endpoint) (body : Request) (k : Cont) (asks : Asks t m dst body k)
      (after : m' = m.sent dst body k)
  | finish (reqId : Nat) (after : m' = { m with calls := m.calls.erase reqId })
  | restart (boots : m'.boots = m.boot :: m.boots) (calls : m'.calls = ∅)

theorem Move.call_step (h : Move t m₀ m m') : CallStep t m m' := by
  cases h with
  | quiet _ h => exact .same h.calls h.nextReq h.boot
  | ask dst body k asks => exact .ask dst body k asks rfl
  | finish reqId => exact .finish reqId rfl
  | reboot => exact .restart rfl rfl
  | submitted _ ps => cases ps.cb <;> exact .same rfl le_rfl rfl
  | mintAlone _ cb | duplicate _ cb | refuse _ cb | ackAlone _ _ _ cb | completed _ _ _ _ _ _ _ _ cb
  | ackDone _ _ _ _ _ cb | ackPlain _ _ cb => cases cb <;> exact .same rfl le_rfl rfl
  | _ => exact .same rfl le_rfl rfl

/-- A call in flight was so before, or is being made. -/
theorem Move.call_cases (h : Move t m₀ m m') {reqId : Nat} {call : PendingCall}
    (hcall : m'.calls.lookup reqId = some call) :
    m'.boot = m.boot ∧ (m.calls.lookup reqId = some call ∨ ∃ dst body, reqId = m.nextReq ∧
      Asks t m dst body call.cont ∧ m' = m.sent dst body call.cont) := by
  cases h.call_step with
  | same hcalls _ hboot => exact ⟨hboot, Or.inl (hcalls ▸ hcall)⟩
  | ask dst body k asks hafter =>
    subst hafter
    refine ⟨rfl, ?_⟩
    rcases lookup_insert_cases hcall with ⟨rfl, rfl⟩ | ⟨_, hold⟩
    · exact Or.inr ⟨dst, body, rfl, asks, rfl⟩
    · exact Or.inl hold
  | finish rid hafter =>
    subst hafter
    exact ⟨rfl, Or.inl (lookup_erase_cases hcall).2⟩
  | restart _ hcalls =>
    rw [hcalls] at hcall
    cases hcall

/-- Why a submit waits for a replica: it did so before, it is the one just minted, or a reply to
    it has been counted. -/
inductive Waits (t : Trigger) (m₀ m m' : Node) (id : JobId) (ps : PendingSubmit) : Prop where
  | kept (found : m.pendingSubmits.lookup id = some ps)
  | mint (p : SubmitParams) (submits : Submits t m p ps.cb)
      (stored : m'.store = m.store.append (.submit (m.mintJob p))) (same : id = (m.mintJob p).id)
      (needed : ps.needed = 1)
  | count (ps' : PendingSubmit) (found : m.pendingSubmits.lookup id = some ps')
      (cb : ps.cb = ps'.cb)
      (h : ps.needed = ps'.needed ∨ ∃ slot st body, (st = kCreated ∨ st = kDuplicate) ∧
        Answers t m₀ (.replicate id slot) st body)

theorem Move.waits (h : Move t m₀ m m') {id : JobId} {ps : PendingSubmit}
    (hps : m'.pendingSubmits.lookup id = some ps) : Waits t m₀ m m' id ps := by
  cases h with
  | quiet _ h => exact .kept (h.pendingSubmits ▸ hps)
  | mint p cb writes submits =>
    rcases lookup_insert_cases hps with ⟨rfl, rfl⟩ | ⟨_, hold⟩
    · exact .mint p submits rfl rfl rfl
    · exact .kept hold
  | mintAlone p cb ps₀ =>
    -- The entry is put in and taken out again.
    have hboth : ((m.pendingSubmits.insert (m.mintJob p).id ps₀).erase (m.mintJob p).id).lookup id =
        some ps := by
      cases cb <;> exact hps
    rcases lookup_erase_cases hboth with ⟨hne, hins⟩
    rcases lookup_insert_cases hins with ⟨heq, _⟩ | ⟨_, hold⟩
    · exact absurd heq hne
    · exact .kept hold
  | countSubmit id' ps' needed outstanding found h =>
    rcases lookup_insert_cases hps with ⟨rfl, rfl⟩ | ⟨_, hold⟩
    · exact .count ps' found rfl h
    · exact .kept hold
  | submitted id' ps' =>
    have herase : (m.pendingSubmits.erase id').lookup id = some ps := by
      cases hcb : ps'.cb <;> rw [hcb] at hps <;> exact hps
    exact .kept (lookup_erase_cases herase).2
  | reboot => cases hps
  | duplicate _ cb | refuse _ cb | ackAlone _ _ _ cb | completed _ _ _ _ _ _ _ _ cb
  | ackDone _ _ _ _ _ cb | ackPlain _ _ cb => cases cb <;> exact .kept hps
  | _ => exact .kept hps

/-- The commits under way: one more, one counted with its callback kept, or
    none after a restart. -/
inductive QuorumStep (t : Trigger) (m₀ m m' : Node) : Prop where
  | same (states : m'.qstates = m.qstates)
  | begin_ (id : JobId) (l : Job) (r : Record) (d : DoneCb) (found : m.find id = some l)
      (owned : l.owner = m.self) (begins : Begins t m₀ m id l r d) (open_ : m.store.failed = false)
      (peers : l.peers m.self ≠ []) (stored : m'.store = m.store.append r)
      (states : m'.qstates = m.qstates ++
        [{ done := d, needed := 1, outstanding := (l.peers m.self).length, fired := false }])
      (repair : m'.repair = m.repair.insert id 0)
  | count (q : Nat) (s s' : QState) (state : m.qstates[q]? = some s) (done : s'.done = s.done)
      (fired : s.fired = true → s'.fired = true) (states : m'.qstates = m.qstates.set q s')
  | restart (states : m'.qstates = []) (calls : m'.calls = ∅)

theorem Move.quorum_step (h : Move t m₀ m m') : QuorumStep t m₀ m m' := by
  cases h with
  | quiet _ h => exact .same h.qstates
  | begin_ id l r d found owned begins open_ peers =>
    exact .begin_ id l r d found owned begins open_ peers rfl rfl rfl
  | miss q s fired state h =>
    exact .count q s { s with outstanding := s.outstanding - 1, fired } state rfl h rfl
  | confirm _ _ _ _ q s _ _ state | grant _ _ _ _ _ q s _ _ _ _ _ _ state =>
    exact .count q s
      { s with outstanding := s.outstanding - 1, needed := s.needed - 1, fired := true } state rfl
      (fun _ => rfl) rfl
  | completed id id' slot member r q s body cb answers state =>
    exact .count q s
      { s with outstanding := s.outstanding - 1, needed := s.needed - 1, fired := true } state rfl
      (fun _ => rfl) (by rw [ackCb_qstates])
  | unlease id l q s epoch leaseSeq worker store found state =>
    exact .count q s { s with outstanding := s.outstanding - 1, fired := true } state rfl
      (fun _ => rfl) rfl
  | reboot => exact .restart rfl rfl
  | submitted _ ps => cases ps.cb <;> exact .same rfl
  | mintAlone _ cb | duplicate _ cb | refuse _ cb | ackAlone _ _ _ cb | ackDone _ _ _ _ _ cb
  | ackPlain _ _ cb => cases cb <;> exact .same rfl
  | _ => exact .same rfl

/-- A commit is under way since before, with the callback it had, or is being begun. -/
theorem Move.commit_cases (h : Move t m₀ m m') {q : Nat} {s : QState}
    (hs : m'.qstates[q]? = some s) :
    (∃ s₀, m.qstates[q]? = some s₀ ∧ s.done = s₀.done ∧ (s₀.fired = true → s.fired = true)) ∨
      ∃ id l r, m.find id = some l ∧ l.owner = m.self ∧ Begins t m₀ m id l r s.done ∧
        m'.store = m.store.append r ∧ m'.repair = m.repair.insert id 0 := by
  cases h.quorum_step with
  | same states => exact Or.inl ⟨s, states ▸ hs, rfl, fun h => h⟩
  | begin_ id l r d found owned begins open_ peers stored states repair =>
    rw [states] at hs
    by_cases hq : q < m.qstates.length
    · rw [List.getElem?_append_left hq] at hs
      exact Or.inl ⟨s, hs, rfl, fun h => h⟩
    · rw [List.getElem?_append_right (by omega)] at hs
      obtain rfl := List.mem_singleton.mp (List.mem_of_getElem? hs)
      exact Or.inr ⟨id, l, r, found, owned, begins, stored, repair⟩
  | count q' s₀ s' state done fired states =>
    left
    rw [states] at hs
    by_cases hq : q' = q
    · subst hq
      rw [List.getElem?_set_self (List.getElem?_eq_some_iff.mp state).1] at hs
      obtain rfl : s' = s := Option.some.inj hs
      exact ⟨s₀, state, done, fired⟩
    · rw [List.getElem?_set_ne hq] at hs
      exact ⟨s, hs, rfl, fun h => h⟩
  | restart states =>
    rw [states] at hs
    cases hs

/-- The standing claims: one opened, one merged into or rescheduled, one closed,
    or none after a restart. -/
inductive ClaimStep (t : Trigger) (m₀ m m' : Node) : Prop where
  | same (claims : m'.claims = m.claims)
  | erase (id : JobId) (claims : m'.claims = m.claims.erase id)
      (h : t.seizes id = false ∨ ∃ st, m.claims.lookup id = some st ∧ st.needed ≤ 0)
  | seize (id : JobId) (l : Job) (found : m.find id = some l) (other : l.owner ≠ m.self)
      (active : l.terminal = false) (unclaimed : id ∉ m.claims) (open_ : m.store.failed = false)
      (stored : m'.store = m.store.append (.takeover id ((l.epoch + 1) % 2 ^ 32) m.self))
      (claims : m'.claims = m.claims.insert id (m.newClaim l ((l.epoch + 1) % 2 ^ 32)))
      (trigger : t.seizes id = true)
  | merge (id : JobId) (dst : Endpoint) (body : Reply) (st : ClaimState) (bit : Nat)
      (answers : Answers t m₀ (.claim id dst) kCreated body)
      (standing : m.claims.lookup id = some st)
      (same : m.claims = m₀.claims) (first : m.store = m₀.store) (stored : m'.store = m.store)
      (claims : m'.claims = m.claims.insert id ((st.count bit).merge body.asClaimInfo))
  | retry (id : JobId) (st : ClaimState) (next : Time) (standing : m.claims.lookup id = some st)
      (stored : m'.store = m.store)
      (claims : m'.claims = m.claims.insert id { st with nextRetry := next })
  | restart (claims : m'.claims = ∅) (boot : Nat) (trigger : t = .input (.restart boot))

theorem Move.claim_step (h : Move t m₀ m m') : ClaimStep t m₀ m m' := by
  cases h with
  | quiet _ h => exact .same h.claims
  | demote id j found other trigger => exact .erase id rfl (Or.inl trigger)
  | seize id l found other active unclaimed open_ trigger =>
    exact .seize id l found other active unclaimed open_ rfl rfl trigger
  | merge id dst body st bit answers standing same first =>
    exact .merge id dst body st bit answers standing same first rfl rfl
  | retry id st next standing => exact .retry id st next standing rfl rfl
  | dropClaim id st standing h => exact .erase id rfl (h.imp_right (fun hn => ⟨st, standing, hn⟩))
  | finalize id st l j s deadlines standing ripe =>
    refine .erase id rfl ?_
    cases ripe with
    | granted _ _ _ _ answers => exact Or.inl (answers.seizes id)
    | alone _ _ _ _ _ none_ => exact Or.inr ⟨st, standing, none_⟩
  | reboot boot _ _ trigger => exact .restart rfl boot trigger
  | submitted _ ps => cases ps.cb <;> exact .same rfl
  | mintAlone _ cb | duplicate _ cb | refuse _ cb | ackAlone _ _ _ cb | completed _ _ _ _ _ _ _ _ cb
  | ackDone _ _ _ _ _ cb | ackPlain _ _ cb => cases cb <;> exact .same rfl
  | _ => exact .same rfl

/-- Counting and merging a grant keep what a claim proposes and needs. -/
theorem ClaimState.merged_kept (st : ClaimState) (bit : Nat)
    (info : Option (Option JobState × Nat)) : ((st.count bit).merge info).proposed = st.proposed ∧
      ((st.count bit).merge info).needed = st.needed := by
  unfold ClaimState.count
  cases info with
  | none | some => split <;> exact ⟨rfl, rfl⟩

/-- Why a claim stands: it stood before, at most with a grant merged since, or the job is being
    taken over. -/
inductive Stands (t : Trigger) (m₀ m m' : Node) (id : JobId) (st : ClaimState) : Prop where
  | kept (st' : ClaimState) (standing : m.claims.lookup id = some st')
      (proposed : st.proposed = st'.proposed) (needed : st.needed = st'.needed)
      (merged : (st.bestState = st'.bestState ∧ st.bestSeq = st'.bestSeq) ∨ ∃ dst body bit,
        Answers t m₀ (.claim id dst) kCreated body ∧ st = (st'.count bit).merge body.asClaimInfo)
  | seize (l : Job) (found : m.find id = some l) (other : l.owner ≠ m.self)
      (active : l.terminal = false) (unclaimed : id ∉ m.claims) (open_ : m.store.failed = false)
      (stored : m'.store = m.store.append (.takeover id ((l.epoch + 1) % 2 ^ 32) m.self))
      (trigger : t.seizes id = true) (after : st = m.newClaim l ((l.epoch + 1) % 2 ^ 32))

theorem Move.stands (h : Move t m₀ m m') {id : JobId} {st : ClaimState}
    (hst : m'.claims.lookup id = some st) : Stands t m₀ m m' id st := by
  have hkept : m.claims.lookup id = some st → Stands t m₀ m m' id st :=
    fun hold => .kept st hold rfl rfl (Or.inl ⟨rfl, rfl⟩)
  cases h.claim_step with
  | same hcl => exact hkept (hcl ▸ hst)
  | erase id' hcl => exact hkept (lookup_erase_cases (hcl ▸ hst)).2
  | seize id' l found other active unclaimed open_ stored hcl trigger =>
    rcases lookup_insert_cases (hcl ▸ hst) with ⟨rfl, rfl⟩ | ⟨_, hold⟩
    · exact .seize l found other active unclaimed open_ stored trigger rfl
    · exact hkept hold
  | merge id' dst body st' bit answers standing same first stored hcl =>
    rcases lookup_insert_cases (hcl ▸ hst) with ⟨rfl, rfl⟩ | ⟨_, hold⟩
    · have hsame := st'.merged_kept bit body.asClaimInfo
      exact .kept st' standing hsame.1 hsame.2 (Or.inr ⟨dst, body, bit, answers, rfl⟩)
    · exact hkept hold
  | retry id' st' next standing stored hcl =>
    rcases lookup_insert_cases (hcl ▸ hst) with ⟨rfl, rfl⟩ | ⟨_, hold⟩
    · exact .kept st' standing rfl rfl (Or.inl ⟨rfl, rfl⟩)
    · exact hkept hold
  | restart hcl =>
    rw [hcl] at hst
    cases hst

theorem Record.on_owner_of_not_takeover (r : Record) (l : Job) (hr : r.full = none)
    (ht : r.isTakeover = false) : (r.on l).owner = l.owner := by
  refine r.on_owner l hr ?_
  rintro id epoch o rfl
  simp [Record.isTakeover] at ht

theorem Transition.fence {id : JobId} {l : Job} {r : Record} (h : Transition id l r) :
    r.fence = some l.epoch := by
  cases h <;> rfl

theorem inherits_fence {id : JobId} {st : ClaimState} {l : Job} {r : Record}
    (h : Node.inherits id st l = some r) : r.fence = some l.epoch ∧ r.isTakeover = false := by
  unfold Node.inherits at h
  split at h
  · cases h
    exact ⟨rfl, rfl⟩
  · split at h
    · cases h
      exact ⟨rfl, rfl⟩
    · split at h
      · cases h
        exact ⟨rfl, rfl⟩
      · cases h

theorem Attempt.table_cases {s s' : Store} {r : Record} (h : Attempt s r s') :
    s'.table = s.table ∨ s'.table = s.table.apply r := by
  cases h with
  | durable => exact Or.inr rfl
  | lost | kept | refused => exact Or.inl rfl

theorem Transition.owner_on {id : JobId} {l : Job} {r : Record} (h : Transition id l r) :
    (r.on l).owner = l.owner :=
  r.on_owner_of_not_takeover l h.full h.not_takeover

/-- A takeover leaves the owner it found. -/
theorem finalized_owner {id : JobId} {st : ClaimState} {l j : Job} {s : Store}
    (found : m.find id = some l) (none_ : Node.inherits id st l = none → s = m.store)
    (some_ : ∀ r, Node.inherits id st l = some r → Attempt m.store r s)
    (after : s.table.find id = some j) : j.owner = l.owner := by
  have hsame : s.table = m.store.table → j.owner = l.owner := by
    intro htable
    rw [htable] at after
    rw [Option.some.inj (after.symm.trans found)]
  cases hinh : Node.inherits id st l with
  | none => exact hsame (by rw [none_ hinh])
  | some r =>
    have hspec := inherits_spec hinh
    rcases (some_ r hinh).table_cases with htable | htable
    · exact hsame htable
    · have happ := find_append_of_found m.store hspec.1 found
      change (m.store.table.apply r).find id = some (r.on l) at happ
      rw [htable, happ] at after
      rw [← Option.some.inj after]
      exact r.on_owner_of_not_takeover l hspec.2 (inherits_fence hinh).2

/-- A record the owner's bookkeeping does not follow: one appended for another
    node, a lease taken back, a takeover of an active copy. -/
inductive Passive (t : Trigger) (m₀ m : Node) : Record → Prop where
  | serve (ctx : ReqCtx) (r : Record) (body : Reply) (serves : Serves t m₀ m ctx r body) :
      Passive t m₀ m r
  | adopt (j : Job) (writes : Writes t m₀ m (.replicate j)) : Passive t m₀ m (.replicate j)
  | unlease (id : JobId) (l : Job) (q : Nat) (s : QState) (epoch leaseSeq worker : Nat)
      (found : m.find id = some l) (state : m.qstates[q]? = some s) (pending : s.fired = false)
      (isLease : s.done = .lease id epoch leaseSeq worker) :
      Passive t m₀ m (.expire id l.epoch l.leaseSeq)
  | seize (id : JobId) (l : Job) (epoch : Nat) (found : m.find id = some l)
      (other : l.owner ≠ m.self) (active : l.terminal = false) (trigger : t.seizes id = true) :
      Passive t m₀ m (.takeover id epoch m.self)

/-- The confirmed slots, with what happens to the table: an entry starts at no
    slot with every transition of the owner, a confirmation adds to it, and losing
    the job drops it. -/
inductive RepairStep (t : Trigger) (m₀ m m' : Node) : Prop where
  | same (repair : m'.repair = m.repair) (table : m'.store.table = m.store.table)
  | passive (r : Record) (h : Passive t m₀ m r) (repair : m'.repair = m.repair)
      (table : m'.store.table = m.store.table.apply r)
  | drop (id : JobId) (j : Job) (found : m.find id = some j) (other : j.owner ≠ m.self)
      (repair : m'.repair = m.repair.erase id) (table : m'.store.table = m.store.table)
  | zero (id : JobId) (repair : m'.repair = m.repair.insert id 0)
      (table : m'.store.table = m.store.table ∨
        ∃ r, r.jobId = id ∧ m'.store.table = m.store.table.apply r)
      (owned : ∃ j, m'.find id = some j ∧ j.owner = m'.self)
  | mark (id : JobId) (slot : Nat) (confirms : Confirms t m₀ id slot) (first : m.store = m₀.store)
      (settles : Settles t m₀ m id slot) (repair : m'.repair = (m.markReplicaOk id slot).repair)
      (table : m'.store.table = m.store.table)
  | restart (unconfirmed : ∀ id j, m'.find id = some j → j.owner = m'.self →
      m'.repair.lookup id = some 0) (boot : Nat) (trigger : t = .input (.restart boot))

theorem Move.repair_step (h : Move t m₀ m m') : RepairStep t m₀ m m' := by
  have hbegin : ∀ id l r d, Begins t m₀ m id l r d → ∃ r', r'.jobId = id ∧
      m.store.table.apply r = m.store.table.apply r' :=
    fun id l r d hb => ⟨r, hb.transition.jobId, rfl⟩
  -- An owner's transition leaves the job its own.
  have hown : ∀ id l r d, m.find id = some l → l.owner = m.self → Begins t m₀ m id l r d →
      ∃ j, (m.store.table.apply r).find id = some j ∧ j.owner = m.self :=
    fun id l r d found owned hb =>
      ⟨r.on l, find_append_of_found m.store hb.transition.jobId found,
        (hb.transition.owner_on).trans owned⟩
  cases h with
  | quiet _ h => exact .same h.repair (by rw [h.store])
  | serve ctx r body serves => exact .passive r (.serve ctx r body serves) rfl rfl
  | adopt r writes full =>
    rcases full with ⟨j, rfl⟩
    exact .passive _ (.adopt j writes) rfl rfl
  | demote id j found other => exact .drop id j found other rfl rfl
  | mint p cb =>
    exact .zero _ rfl (Or.inr ⟨.submit (m.mintJob p), rfl, rfl⟩)
      ⟨m.mintJob p, find_append_submit m.store _, rfl⟩
  | mintAlone p cb =>
    have hmint := find_append_submit m.store (m.mintJob p)
    cases cb <;>
      exact .zero _ rfl (Or.inr ⟨.submit (m.mintJob p), rfl, rfl⟩) ⟨m.mintJob p, hmint, rfl⟩
  | mintFail p s writes h failed =>
    -- A failed append leaves the table alone.
    cases h with
    | durable open_ => exact absurd (open_.symm.trans failed) (by simp)
    | lost | kept | refused => exact .same rfl rfl
  | reset id j found owned => exact .zero id rfl (Or.inl rfl) ⟨j, found, owned⟩
  | mark id slot confirms first settles => exact .mark id slot confirms first settles rfl rfl
  | begin_ id l r _ found owned begins | beginAlone id l r found owned begins
  | grantAlone id l r _ _ _ found owned begins =>
    exact .zero id rfl (Or.inr (hbegin id l r _ begins)) (hown id l r _ found owned begins)
  | ackAlone id l r cb found owned begins =>
    have hb := hbegin id l r _ begins
    have ho := hown id l r _ found owned begins
    cases cb <;> exact .zero id rfl (Or.inr hb) ho
  | unlease id l q s epoch leaseSeq worker _ found state pending isLease attempt =>
    rcases attempt.table_cases with heq | heq
    · exact .same rfl heq
    · exact .passive _ (.unlease id l q s epoch leaseSeq worker found state pending isLease) rfl heq
  | seize id l found other active _ _ trigger =>
    exact .passive _ (.seize id l _ found other active trigger) rfl rfl
  | finalize id st l j s deadlines standing ripe found owned none_ some_ after =>
    refine .zero id rfl ?_ ⟨j, after, ?_⟩
    · cases hinh : Node.inherits id st l with
      | none => exact Or.inl (by rw [none_ hinh])
      | some r =>
        rcases (some_ r hinh).table_cases with heq | heq
        · exact Or.inl heq
        · exact Or.inr ⟨r, (inherits_spec hinh).1, heq⟩
    · exact (finalized_owner found none_ some_ after).trans owned
  | compact d => exact .same rfl (m.store.compact_eq d).1
  | reboot boot repair deadlines trigger first unconfirmed =>
    exact .restart unconfirmed boot trigger
  | submitted _ ps => cases ps.cb <;> exact .same rfl rfl
  | duplicate _ cb | refuse _ cb | completed _ _ _ _ _ _ _ _ cb | ackDone _ _ _ _ _ cb
  | ackPlain _ _ cb => cases cb <;> exact .same rfl rfl
  | _ => exact .same rfl rfl

/-- The table, with what a restart does besides: it stays, a record is applied, or it is
    rebuilt with every commit and call forgotten. -/
inductive TableStep (t : Trigger) (m₀ m m' : Node) : Prop where
  | same (table : m'.store.table = m.store.table)
  | write (r : Record) (writes : Writes t m₀ m r) (table : m'.store.table = m.store.table.apply r)
  | restart (boot : Nat) (trigger : t = .input (.restart boot)) (first : m.store = m₀.store)
      (stored : m'.store = m.store.reopen) (states : m'.qstates = []) (calls : m'.calls = ∅)
      (unconfirmed : ∀ id j, m'.find id = some j → j.owner = m'.self → m'.repair.lookup id = some 0)

theorem TableStep.of_attempt {r : Record} (hw : Writes t m₀ m r) (h : Attempt m.store r m'.store) :
    TableStep t m₀ m m' := by
  rcases h.table_cases with heq | heq
  · exact .same heq
  · exact .write r hw heq

theorem Move.table_step (h : Move t m₀ m m') : TableStep t m₀ m m' := by
  cases h with
  | quiet _ h => exact .same (by rw [h.store])
  | serve ctx r body serves => exact .write r (.serve ctx r body serves) rfl
  | adopt r writes => exact .write r writes rfl
  | mint p cb writes => exact .write _ writes rfl
  | mintAlone p cb ps writes => cases cb <;> exact .write _ writes rfl
  | mintFail p s writes h => exact .of_attempt writes h
  | begin_ id l r _ found owned begins | beginAlone id l r found owned begins
  | grantAlone id l r _ _ _ found owned begins =>
    exact .write r (.begin_ id l r _ found owned begins) rfl
  | ackAlone id l r cb found owned begins =>
    have hw : Writes t m₀ m r := .begin_ id l r _ found owned begins
    cases cb <;> exact .write r hw rfl
  | unlease id l q s epoch leaseSeq worker store found state pending isLease attempt =>
    exact .of_attempt (.unlease id l q s epoch leaseSeq worker found state pending isLease) attempt
  | seize id l found other active unclaimed _ trigger admitting =>
    exact .write _ (.seize id l found other active unclaimed trigger admitting) rfl
  | finalize id st l j s deadlines standing ripe found owned none_ some_ =>
    cases hinh : Node.inherits id st l with
    | none => exact .same (by rw [none_ hinh])
    | some r => exact .of_attempt (.inherit id st l r ripe found owned hinh) (some_ r hinh)
  | compact d => exact .same (m.store.compact_eq d).1
  | reboot boot repair deadlines trigger _ unconfirmed _ stored =>
    exact .restart boot trigger stored rfl rfl rfl unconfirmed
  | submitted _ ps => cases ps.cb <;> exact .same rfl
  | duplicate _ cb | refuse _ cb | completed _ _ _ _ _ _ _ _ cb | ackDone _ _ _ _ _ cb
  | ackPlain _ _ cb => cases cb <;> exact .same rfl
  | _ => exact .same rfl

/-- The counter behind minted ids, with the record a move may log: a mint uses
    up a number whether or not it is logged, and nothing else does. -/
inductive MintStep (t : Trigger) (m₀ m m' : Node) : Prop where
  | other (next : m'.nextJobSeq = m.nextJobSeq) (boot : m'.boot = m.boot ∧ m'.boots = m.boots)
      (log : m'.store.log = m.store.log ∨ ∃ r, Writes t m₀ m r ∧ (∀ j, r ≠ .submit j) ∧
        m.store.failed = false ∧ m'.store.log = m.store.log ++ [r])
  | mint (p : SubmitParams) (writes : Writes t m₀ m (.submit (m.mintJob p)))
      (next : m'.nextJobSeq = m.nextJobSeq + 1) (boot : m'.boot = m.boot ∧ m'.boots = m.boots)
      (log : m'.store.log = m.store.log ∨
        (m.store.failed = false ∧ m'.store.log = m.store.log ++ [.submit (m.mintJob p)]))
  | restart (boots : m'.boots = m.boot :: m.boots) (log : m'.store.log = m.store.log)

theorem Attempt.log_cases {s s' : Store} {r : Record} (h : Attempt s r s') :
    s'.log = s.log ∨ (s.failed = false ∧ s'.log = s.log ++ [r]) := by
  cases h with
  | durable open_ => exact Or.inr ⟨open_, s.log_append r open_⟩
  | lost open_ => exact Or.inl (by rw [s.log_fail none open_, Option.toList_none, List.append_nil])
  | kept open_ => exact Or.inr ⟨open_, s.log_fail (some r) open_⟩
  | refused => exact Or.inl rfl

theorem Begins.not_submit {id : JobId} {l : Job} {r : Record} {d : DoneCb}
    (h : Begins t m₀ m id l r d) : ∀ j, r ≠ .submit j :=
  h.transition.not_submit

theorem Move.mint_step (h : Move t m₀ m m') : MintStep t m₀ m m' := by
  have hlog : ∀ r, Writes t m₀ m r → (∀ j, r ≠ .submit j) → m.store.failed = false →
      m'.store = m.store.append r → m'.store.log = m.store.log ∨ ∃ r, Writes t m₀ m r ∧
        (∀ j, r ≠ .submit j) ∧ m.store.failed = false ∧ m'.store.log = m.store.log ++ [r] :=
    fun r hw hr open_ hs => Or.inr ⟨r, hw, hr, open_, by rw [hs, m.store.log_append r open_]⟩
  cases h with
  | quiet _ h => exact .other h.nextJobSeq ⟨h.boot, h.boots⟩ (Or.inl (by rw [h.store]))
  | serve ctx r body serves open_ =>
    exact .other rfl ⟨rfl, rfl⟩ (hlog r (.serve ctx r body serves) serves.not_submit open_ rfl)
  | adopt r writes full open_ =>
    rcases full with ⟨j, rfl⟩
    exact .other rfl ⟨rfl, rfl⟩ (hlog _ writes (by simp) open_ rfl)
  | spoil r limbo writes other _ h open_ =>
    refine .other rfl ⟨rfl, rfl⟩ ?_
    rcases h with rfl | rfl
    · exact Or.inl (by rw [m.store.log_fail none open_, Option.toList_none, List.append_nil])
    · exact Or.inr ⟨r, writes, other, open_, m.store.log_fail (some r) open_⟩
  | mint p cb writes _ open_ =>
    exact .mint p writes rfl ⟨rfl, rfl⟩ (Or.inr ⟨open_, m.store.log_append _ open_⟩)
  | mintAlone p cb ps writes _ open_ =>
    cases cb <;> exact .mint p writes rfl ⟨rfl, rfl⟩ (Or.inr ⟨open_, m.store.log_append _ open_⟩)
  | mintFail p s writes h => exact .mint p writes rfl ⟨rfl, rfl⟩ h.log_cases
  | begin_ id l r _ found owned begins open_ | beginAlone id l r found owned begins open_
  | grantAlone id l r _ _ _ found owned begins open_ =>
    exact .other rfl ⟨rfl, rfl⟩
      (hlog r (.begin_ id l r _ found owned begins) begins.not_submit open_ rfl)
  | ackAlone id l r cb found owned begins open_ =>
    have hl := hlog r (.begin_ id l r _ found owned begins) begins.not_submit open_
      (ackCb_store _ _ _ _)
    cases cb <;> exact .other rfl ⟨rfl, rfl⟩ hl
  | unlease id l q s epoch leaseSeq worker store found state pending isLease attempt =>
    refine .other rfl ⟨rfl, rfl⟩ ?_
    rcases attempt.log_cases with hsame | ⟨open_, heq⟩
    · exact Or.inl hsame
    · exact Or.inr ⟨_, .unlease id l q s epoch leaseSeq worker found state pending isLease, by simp,
        open_, heq⟩
  | seize id l found other active unclaimed open_ trigger admitting =>
    exact .other rfl ⟨rfl, rfl⟩
      (hlog _ (.seize id l found other active unclaimed trigger admitting) (by simp) open_ rfl)
  | finalize id st l j s deadlines standing ripe found owned none_ some_ =>
    refine .other rfl ⟨rfl, rfl⟩ ?_
    cases hinh : Node.inherits id st l with
    | none => exact Or.inl (by rw [none_ hinh])
    | some r =>
      rcases (some_ r hinh).log_cases with hsame | ⟨open_, heq⟩
      · exact Or.inl hsame
      · refine Or.inr ⟨r, .inherit id st l r ripe found owned hinh, ?_, open_, heq⟩
        rintro j rfl
        exact absurd (inherits_spec hinh).2 (by simp [Record.full])
  | compact d => exact .other rfl ⟨rfl, rfl⟩ (Or.inl (m.store.log_compact d))
  | reboot => exact .restart rfl m.store.log_reopen
  | submitted _ ps => cases ps.cb <;> exact .other rfl ⟨rfl, rfl⟩ (Or.inl rfl)
  | duplicate _ cb | refuse _ cb | completed _ _ _ _ _ _ _ _ cb | ackDone _ _ _ _ _ cb
  | ackPlain _ _ cb => cases cb <;> exact .other rfl ⟨rfl, rfl⟩ (Or.inl rfl)
  | _ => exact .other rfl ⟨rfl, rfl⟩ (Or.inl rfl)

end Bookkeeping

end Tautq
