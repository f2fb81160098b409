import Tautq.Core.Cluster
import Tautq.Lib.Path
import Tautq.Core.Copy

/-!
# Elementary Moves

What a handler can do to a node, said once. A handler is a sequence of moves,
and every invariant of the protocol is proved by looking at one move at a
time, so this module lists them: a request or a response is sent, a record is
appended, a counter moves, a callback runs. Each move carries the guard the
code has checked at that point.

A move is made while a trigger `t` is handled that found the node in state
`m₀`. Most of the guards are about the current state; where the code acts on
the first thing it reads, the guard also says that the store has not changed
since `m₀`, which is what ties a condition on the state before a step to the
record the step writes.

Changes no safety argument looks at (the ready queue, back-off times, tick
times, resync counts) are lumped together in `Quiet`.

Some pairs of changes are one move because what is true after both is false
in between: a transition is logged and marked unconfirmed, a lease is decided
and handed out, a copy is stored and acknowledged.

## Main definitions

* `Quiet`: Nothing but bookkeeping changed.
* `Answers`, `Submits`, `Acks`: How the trigger relates to a callback.
* `Asks`: Why a request is sent.
* `Serves`, `Begins`, `Writes`: Why a record is appended.
* `Move`: One elementary move.
-/

namespace Tautq

open Status

/-- The request context a trigger carries. -/
def Trigger.ctx : Trigger → Option ReqCtx
  | .packet (.request src _ boot reqId asked) => some { src, boot, reqId, asked }
  | _ => none

theorem Trigger.eq_of_ctx {t : Trigger} {ctx : ReqCtx} (h : t.ctx = some ctx) :
    ∃ dst, t = .packet (.request ctx.src dst ctx.boot ctx.reqId ctx.asked) := by
  cases t with
  | input i => cases h
  | packet p =>
    cases p with
    | response => cases h
    | request src dst boot reqId asked =>
      simp only [Trigger.ctx, Option.some.injEq] at h
      subst h
      exact ⟨dst, rfl⟩

/-- Whether a takeover of a job may start while the trigger is handled: on a verdict about a
    peer, and on an invitation. -/
def Trigger.seizes (t : Trigger) (id : JobId) : Bool :=
  match t with
  | .input (.peerDead _) => true
  | .packet (.request _ _ _ _ (.drainHandoff id')) => id' = id
  | _ => false

/-- The trigger is a response that finishes a call with this callback. -/
inductive Answers (t : Trigger) (m₀ : Node) (k : Cont) (st : Status) (body : Reply) : Prop where
  | mk (src dst : Endpoint) (boot reqId : Nat) (asked : Request) (call : PendingCall)
      (trigger : t = .packet (.response src dst boot reqId asked st body))
      (found : m₀.calls.lookup reqId = some call) (cont : call.cont = k)

theorem Answers.seizes {t : Trigger} {m₀ : Node} {k : Cont} {st : Status} {body : Reply}
    (h : Answers t m₀ k st body) (id : JobId) : t.seizes id = false := by
  rcases h with ⟨src, dst, boot, reqId, asked, call, rfl, _⟩
  rfl

/-- A response finishes one call. -/
theorem Answers.unique {t : Trigger} {m₀ : Node} {k k' : Cont} {st st' : Status}
    {body body' : Reply}
    (h : Answers t m₀ k st body) (h' : Answers t m₀ k' st' body') : k = k' := by
  rcases h with ⟨src, dst, boot, reqId, asked, call, rfl, hcall, rfl⟩
  rcases h' with ⟨_, _, _, _, _, call', ht, hcall', rfl⟩
  cases ht
  rw [Option.some.inj (hcall.symm.trans hcall')]

/-- The trigger asks this node, as the owner, to submit. -/
inductive Submits (t : Trigger) (m : Node) (p : SubmitParams) : SubmitCb → Prop where
  | client (trigger : t = .input (.submit p)) (admitted : p.admitted = true)
      (owner : Ring.ownerFor p.idemKey m.members = m.self) : Submits t m p (.client p.idemKey)
  | forwarded (ctx : ReqCtx) (trigger : t.ctx = some ctx) (asked : ctx.asked = .fwdSubmit p) :
      Submits t m p (.reply ctx)

/-- The trigger presents a token to this node, as the owner. -/
inductive Acks (t : Trigger) (id : JobId) (epoch leaseSeq : Nat) (success : Bool) :
    AckCb → Prop where
  | client (trigger : t = .input (.ack id epoch leaseSeq success)) :
      Acks t id epoch leaseSeq success .client
  | forwarded (ctx : ReqCtx) (trigger : t.ctx = some ctx)
      (asked : ctx.asked = .fwdAck id epoch leaseSeq success) :
      Acks t id epoch leaseSeq success (.reply ctx)

/-- The callback of a commit belongs to the record it commits. -/
def DoneCb.carries : DoneCb → Record → Prop
  | .ignore, r => (∃ id e s, r = .expire id e s) ∨ ∃ id e, r = .deadLetter id e
  | .lease id e s w, r => r = .lease id e s w
  | .ack id _, r => ∃ e s, r = .done id e s

/-- A transition an owner makes, against the copy it acts on. -/
inductive Transition (id : JobId) (l : Job) : Record → Prop where
  | lease (worker : Nat) (ready : l.state = .ready)
      (within : (l.leaseSeq + 1) % 2 ^ 32 ≤ l.maxAttempts) :
      Transition id l (.lease id l.epoch ((l.leaseSeq + 1) % 2 ^ 32) worker)
  | expire (leased : l.state = .leased) : Transition id l (.expire id l.epoch l.leaseSeq)
  | park (active : l.terminal = false) : Transition id l (.deadLetter id l.epoch)
  | done (open_ : l.state ≠ .done) : Transition id l (.done id l.epoch l.leaseSeq)

/-- A transition this node, as the owner, has appended. -/
def Committed (m : Node) (id : JobId) (r : Record) : Prop :=
  ∃ w l, w ++ [r] <+: m.store.wal ∧ (replay w).find id = some l ∧ l.owner = m.self ∧
    Transition id l r

/-- Why a request is sent, with the callback waiting for its reply. -/
inductive Asks (t : Trigger) (m : Node) : Endpoint → Request → Cont → Prop where
  | fwdSubmit (p : SubmitParams) (trigger : t = .input (.submit p)) (admitted : p.admitted = true)
      (other : Ring.ownerFor p.idemKey m.members ≠ m.self) :
      Asks t m (Ring.ownerFor p.idemKey m.members) (.fwdSubmit p) (.fwdSubmit p.idemKey)
  | replicate (id : JobId) (slot : Nat) (dst : Endpoint) (j : Job) (found : m.find id = some j)
      (peer : (slot, dst) ∈ j.peers m.self) (entitled : j.owner = m.self ∨ id ∈ m.claims) :
      Asks t m dst (.replicate j) (.replicate id slot)
  | apply (id : JobId) (slot : Nat) (dst : Endpoint) (j : Job) (r : Record) (q : Nat) (s : QState)
      (found : m.find id = some j) (peer : (slot, dst) ∈ j.peers m.self)
      (committed : Committed m id r) (state : m.qstates[q]? = some s) (carries : s.done.carries r) :
      Asks t m dst (.apply r) (.apply id slot dst r q)
  | fwdAck (id : JobId) (epoch leaseSeq : Nat) (success : Bool) (j : Job)
      (trigger : t = .input (.ack id epoch leaseSeq success)) (found : m.find id = some j)
      (other : j.owner ≠ m.self) : Asks t m j.owner (.fwdAck id epoch leaseSeq success) .fwdAck
  | claim (id : JobId) (dst : Endpoint) (slot : Nat) (j : Job) (st : ClaimState)
      (standing : m.claims.lookup id = some st) (found : m.find id = some j)
      (peer : (slot, dst) ∈ j.peers m.self) :
      Asks t m dst (.claim id st.proposed m.self) (.claim id dst)
  | resync (id : JobId) (dst : Endpoint) (slot : Nat) (j : Job) (found : m.find id = some j)
      (peer : (slot, dst) ∈ j.peers m.self) : Asks t m dst (.resync id) (.resync id)
  | drainHandoff (id : JobId) (dst : Endpoint) : Asks t m dst (.drainHandoff id) .drainHandoff
  | fwdStatus (id : JobId) (dst : Endpoint) (rest : List Endpoint) (best : Option Job) :
      Asks t m dst (.fwdStatus id) (.fwdStatus id rest best)

/-- A record appended for another node's request, with the answer it gets. -/
inductive Serves (t : Trigger) (m₀ m : Node) (ctx : ReqCtx) : Record → Reply → Prop where
  | copy (j : Job) (trigger : t.ctx = some ctx) (asked : ctx.asked = .replicate j)
      (unfenced : ∀ l, m.find j.id = some l → l.epoch ≤ j.epoch) (first : m.store = m₀.store) :
      Serves t m₀ m ctx (.replicate j) .empty
  | apply (r : Record) (epoch : Nat) (l : Job) (trigger : t.ctx = some ctx)
      (asked : ctx.asked = .apply r) (fence : r.fence = some epoch)
      (found : m.find r.jobId = some l) (unfenced : l.epoch ≤ epoch)
      (owner : ctx.src = l.owner ∨ r.isTakeover = true) (first : m.store = m₀.store) :
      Serves t m₀ m ctx r .empty
  | claim (id : JobId) (proposed : Nat) (l : Job) (trigger : t.ctx = some ctx)
      (asked : ctx.asked = .claim id proposed ctx.src) (found : m.find id = some l)
      (member : ctx.src ∈ l.replicas.toList) (higher : l.epoch < proposed)
      (first : m.store = m₀.store) :
      Serves t m₀ m ctx (.takeover id proposed ctx.src) (.claimInfo l.state l.leaseSeq)

/-- A transition this node starts as the owner, with the callback that waits
    for its quorum. -/
inductive Begins (t : Trigger) (m₀ m : Node) (id : JobId) (l : Job) : Record → DoneCb → Prop where
  | lease (worker : Nat) (trigger : t = .input (.lease worker)) (ready : l.state = .ready)
      (within : (l.leaseSeq + 1) % 2 ^ 32 ≤ l.maxAttempts) (first : m.store = m₀.store) :
      Begins t m₀ m id l (.lease id l.epoch ((l.leaseSeq + 1) % 2 ^ 32) worker)
        (.lease id l.epoch ((l.leaseSeq + 1) % 2 ^ 32) worker)
  | exhausted (ready : l.state = .ready) (used : l.maxAttempts < (l.leaseSeq + 1) % 2 ^ 32) :
      Begins t m₀ m id l (.deadLetter id l.epoch) .ignore
  | parked (leased : l.state = .leased) (used : l.maxAttempts ≤ l.leaseSeq) :
      Begins t m₀ m id l (.deadLetter id l.epoch) .ignore
  | expired (leased : l.state = .leased) (disarmed : id ∉ m.leaseDeadline)
      (told : m.events.head? = some (.expired id l.leaseSeq m.now)) :
      Begins t m₀ m id l (.expire id l.epoch l.leaseSeq) .ignore
  | nacked (epoch : Nat) (leased : l.state = .leased) (older : epoch ≤ l.epoch)
      (disarmed : id ∉ m.leaseDeadline)
      (told : m.events.head? = some (.nacked id epoch l.leaseSeq m.now)) :
      Begins t m₀ m id l (.expire id l.epoch l.leaseSeq) .ignore
  | done (epoch leaseSeq : Nat) (cb : AckCb) (acks : Acks t id epoch leaseSeq true cb)
      (open_ : l.state ≠ .done)
      (accepted : (Node.currentLease l epoch leaseSeq || Node.amnesty l epoch leaseSeq ||
        Node.lateAfterPark l epoch) = true) (first : m.store = m₀.store) :
      Begins t m₀ m id l (.done id l.epoch l.leaseSeq) (.ack id cb)

/-- A claim that has its majority: the last grant has just been merged, or
    none was needed and the claim knows what the copy says. -/
inductive Ripe (t : Trigger) (m₀ m : Node) (id : JobId) (st : ClaimState) : Prop where
  | granted (dst : Endpoint) (body : Reply) (st₀ : ClaimState) (bit : Nat)
      (answers : Answers t m₀ (.claim id dst) kCreated body)
      (standing : m₀.claims.lookup id = some st₀)
      (merged : st = (st₀.count bit).merge body.asClaimInfo)
      (enough : st.needed ≤ st.acks) (first : m.store = m₀.store) : Ripe t m₀ m id st
  | alone (l : Job) (found : m.find id = some l) (state : st.bestState = l.state)
      (seq : st.bestSeq = l.leaseSeq) (active : l.terminal = false) (none_ : st.needed ≤ 0) :
      Ripe t m₀ m id st

/-- Why a record is appended. -/
inductive Writes (t : Trigger) (m₀ m : Node) : Record → Prop where
  | mint (p : SubmitParams) (cb : SubmitCb) (submits : Submits t m p cb)
      (fresh : m.store.table.findByIdem p.idemKey = none) (first : m.store = m₀.store)
      (count : m.nextJobSeq = m₀.nextJobSeq) (admitting : m.draining = false)
      (view : m.peers = m₀.peers) : Writes t m₀ m (.submit (m.mintJob p))
  | serve (ctx : ReqCtx) (r : Record) (body : Reply) (serves : Serves t m₀ m ctx r body) :
      Writes t m₀ m r
  | adopt (id : JobId) (j l : Job) (answers : Answers t m₀ (.resync id) kCreated (.job j))
      (same : j.id = id) (found : m.find id = some l) (ahead : jobAdvances l j = true)
      (first : m.store = m₀.store) : Writes t m₀ m (.replicate j)
  | begin_ (id : JobId) (l : Job) (r : Record) (d : DoneCb) (found : m.find id = some l)
      (owned : l.owner = m.self) (begins : Begins t m₀ m id l r d) : Writes t m₀ m r
  | unlease (id : JobId) (l : Job) (q : Nat) (s : QState) (epoch leaseSeq worker : Nat)
      (found : m.find id = some l) (state : m.qstates[q]? = some s) (pending : s.fired = false)
      (isLease : s.done = .lease id epoch leaseSeq worker) :
      Writes t m₀ m (.expire id l.epoch l.leaseSeq)
  | seize (id : JobId) (l : Job) (found : m.find id = some l) (other : l.owner ≠ m.self)
      (active : l.terminal = false) (unclaimed : id ∉ m.claims) (trigger : t.seizes id = true)
      (admitting : m.draining = false) :
      Writes t m₀ m (.takeover id ((l.epoch + 1) % 2 ^ 32) m.self)
  | inherit (id : JobId) (st : ClaimState) (l : Job) (r : Record) (ripe : Ripe t m₀ m id st)
      (found : m.find id = some l) (owned : l.owner = m.self)
      (inherits : Node.inherits id st l = some r) : Writes t m₀ m r

/-- An expiry that is written is another node's or one this node starts; giving back
    a lease that is not decided yet is a move of its own. -/
def Starts (t : Trigger) (m₀ m : Node) (r : Record) : Prop :=
  ∀ id epoch leaseSeq, r = .expire id epoch leaseSeq →
    (∃ ctx body, Serves t m₀ m ctx r body) ∨
      ∃ l, m.find id = some l ∧ l.owner = m.self ∧ Begins t m₀ m id l r .ignore

/-- Events no safety argument looks at. -/
def Event.idle : Event → Prop
  | .leaseRefused _ => True
  | .ackRelayed _ => True
  | .statusAnswered _ _ _ => True
  | .submitAnswered _ st _ => st ≠ kCreated ∧ st ≠ kDuplicate
  | _ => False

/-- Nothing but bookkeeping changed. -/
structure Quiet (m m' : Node) : Prop where
  self : m'.self = m.self
  cfg : m'.cfg = m.cfg
  boot : m'.boot = m.boot
  store : m'.store = m.store
  nextJobSeq : m'.nextJobSeq = m.nextJobSeq
  nextReq : m.nextReq ≤ m'.nextReq
  calls : m'.calls = m.calls
  pendingSubmits : m'.pendingSubmits = m.pendingSubmits
  repair : m'.repair = m.repair
  leaseDeadline : m'.leaseDeadline = m.leaseDeadline
  qstates : m'.qstates = m.qstates
  claims : m'.claims = m.claims
  draining : m'.draining = m.draining
  now : m'.now = m.now
  peers : m'.peers = m.peers
  boots : m'.boots = m.boots
  outbox : m'.outbox = m.outbox
  events : m'.events = m.events

/-- A request is on its way and its callback waits. -/
def Node.sent (m : Node) (dst : Endpoint) (body : Request) (k : Cont) : Node :=
  { m with
    nextReq := m.nextReq + 1
    calls := m.calls.insert m.nextReq
      { peer := dst, deadline := m.now + m.cfg.rpcTimeout, cont := k }
    outbox := m.outbox ++ [.request m.self dst m.boot m.nextReq body] }

/-- Who an ack callback belongs to: the ack being handled, or a completion
    still waiting for its quorum. -/
def AckSource (t : Trigger) (m : Node) (id : JobId) (cb : AckCb) : Prop :=
  (∃ epoch leaseSeq success, Acks t id epoch leaseSeq success cb) ∨
    ∃ s ∈ m.qstates, s.done = .ack id cb

/-- The reply a plain answer carries: anything but a confirmation, save for an
    invitation, which is always confirmed. -/
def Plain (ctx : ReqCtx) (st : Status) : Prop :=
  (st ≠ kCreated ∧ st ≠ kDuplicate) ∨ ∃ id, ctx.asked = .drainHandoff id

/-- A replica confirmed a slot: it stored a full copy or applied a record. -/
inductive Confirms (t : Trigger) (m₀ : Node) (id : JobId) (slot : Nat) : Prop where
  | replicate (st : Status) (body : Reply) (ok : st = kCreated ∨ st = kDuplicate)
      (answers : Answers t m₀ (.replicate id slot) st body) : Confirms t m₀ id slot
  | apply (member : Endpoint) (r : Record) (q : Nat) (body : Reply)
      (answers : Answers t m₀ (.apply id slot member r q) kCreated body) : Confirms t m₀ id slot

/-- The confirmed slot is marked after the commit it confirms is decided, if it is one. -/
def Settles (t : Trigger) (m₀ m : Node) (id : JobId) (slot : Nat) : Prop :=
  ∀ member r q body, Answers t m₀ (.apply id slot member r q) kCreated body →
    ∀ s, m.qstates[q]? = some s → s.fired = true

/-- What is left of a store after an append that may have failed. -/
inductive Attempt (s : Store) (r : Record) : Store → Prop where
  | durable (open_ : s.failed = false) : Attempt s r (s.append r)
  | lost (open_ : s.failed = false) : Attempt s r (s.fail none)
  | kept (open_ : s.failed = false) : Attempt s r (s.fail (some r))
  | refused (failed : s.failed = true) : Attempt s r s

/-- One elementary move, made while `t` is handled that found the node in
    state `m₀`. -/
inductive Move (t : Trigger) (m₀ : Node) : Node → Node → Prop where
  | quiet (m m' : Node) (h : Quiet m m') : Move t m₀ m m'
  | advance (m : Node) (d : Time) : Move t m₀ m { m with now := m.now + d }
  | view (m : Node) (peers : List Endpoint) (trigger : t = .input (.view peers)) :
      Move t m₀ m { m with peers }
  | drain (m : Node) (trigger : t = .input .drain) : Move t m₀ m { m with draining := true }
  | drained (m : Node) (draining : m.draining = true)
      (none_ : ∀ id j, m.find id = some j → j.owner = m.self → j.terminal = true) :
      Move t m₀ m (m.emit .drained)
  | note (m : Node) (e : Event) (idle : e.idle) : Move t m₀ m (m.emit e)
  | ask (m : Node) (dst : Endpoint) (body : Request) (k : Cont) (asks : Asks t m dst body k) :
      Move t m₀ m (m.sent dst body k)
  | finish (m : Node) (reqId : Nat) : Move t m₀ m { m with calls := m.calls.erase reqId }
  -- Answers that change nothing else.
  | plain (m : Node) (ctx : ReqCtx) (st : Status) (trigger : t.ctx = some ctx) (h : Plain ctx st) :
      Move t m₀ m (m.respond ctx st .empty)
  | show_ (m : Node) (ctx : ReqCtx) (id : JobId) (j : Job) (trigger : t.ctx = some ctx)
      (asked : ctx.asked = .resync id ∨ ctx.asked = .fwdStatus id) (found : m.find id = some j) :
      Move t m₀ m (m.respond ctx kCreated (.job j))
  | regrant (m : Node) (ctx : ReqCtx) (id : JobId) (j : Job) (trigger : t.ctx = some ctx)
      (asked : ctx.asked = .claim id j.epoch ctx.src) (found : m.find id = some j)
      (member : ctx.src ∈ j.replicas.toList) (owner : j.owner = ctx.src) :
      Move t m₀ m (m.respond ctx kCreated (.claimInfo j.state j.leaseSeq))
  -- Records appended for others.
  | serve (m : Node) (ctx : ReqCtx) (r : Record) (body : Reply) (serves : Serves t m₀ m ctx r body)
      (open_ : m.store.failed = false) :
      Move t m₀ m (({ m with store := m.store.append r } : Node).respond ctx kCreated body)
  | adopt (m : Node) (r : Record) (writes : Writes t m₀ m r) (full : ∃ j, r = .replicate j)
      (open_ : m.store.failed = false) : Move t m₀ m { m with store := m.store.append r }
  | spoil (m : Node) (r : Record) (limbo : Option Record) (writes : Writes t m₀ m r)
      (other : ∀ j, r ≠ .submit j) (kept : Starts t m₀ m r) (h : limbo = none ∨ limbo = some r)
      (open_ : m.store.failed = false) :
      Move t m₀ m { m with store := m.store.fail limbo }
  | demote (m : Node) (id : JobId) (j : Job) (found : m.find id = some j) (other : j.owner ≠ m.self)
      (trigger : t.seizes id = false) :
      Move t m₀ m { m with
        leaseDeadline := m.leaseDeadline.erase id
        repair := m.repair.erase id
        claims := m.claims.erase id }
  -- Submits.
  | mint (m : Node) (p : SubmitParams) (cb : SubmitCb)
      (writes : Writes t m₀ m (.submit (m.mintJob p)))
      (submits : Submits t m p cb) (open_ : m.store.failed = false)
      (peers : (m.mintJob p).peers m.self ≠ []) :
      Move t m₀ m { m with
        nextJobSeq := m.nextJobSeq + 1
        store := m.store.append (.submit (m.mintJob p))
        repair := m.repair.insert (m.mintJob p).id 0
        pendingSubmits := m.pendingSubmits.insert (m.mintJob p).id
          { cb, needed := 1, outstanding := ((m.mintJob p).peers m.self).length } }
  | mintAlone (m : Node) (p : SubmitParams) (cb : SubmitCb) (ps : PendingSubmit)
      (writes : Writes t m₀ m (.submit (m.mintJob p))) (submits : Submits t m p cb)
      (open_ : m.store.failed = false) (peers : (m.mintJob p).peers m.self = []) :
      Move t m₀ m (({ m with
        nextJobSeq := m.nextJobSeq + 1
        store := m.store.append (.submit (m.mintJob p))
        repair := m.repair.insert (m.mintJob p).id 0
        pendingSubmits := (m.pendingSubmits.insert (m.mintJob p).id ps).erase (m.mintJob p).id } :
          Node).submitCb cb kCreated (m.mintJob p).id)
  | mintFail (m : Node) (p : SubmitParams) (s : Store)
      (writes : Writes t m₀ m (.submit (m.mintJob p)))
      (h : Attempt m.store (.submit (m.mintJob p)) s) (failed : s.failed = true) :
      Move t m₀ m { m with nextJobSeq := m.nextJobSeq + 1, store := s }
  | duplicate (m : Node) (p : SubmitParams) (cb : SubmitCb) (j : Job) (submits : Submits t m p cb)
      (found : m.store.table.findByIdem p.idemKey = some j) (first : m.store = m₀.store) :
      Move t m₀ m (m.submitCb cb kDuplicate j.id)
  | refuse (m : Node) (p : SubmitParams) (cb : SubmitCb) (submits : Submits t m₀ p cb)
      (id : JobId) : Move t m₀ m (m.submitCb cb kNoQuorum id)
  | relay (m : Node) (key : Bytes) (st : Status) (body : Reply)
      (answers : Answers t m₀ (.fwdSubmit key) st body) :
      Move t m₀ m (m.emit (.submitAnswered key st body.asJobId))
  | countSubmit (m : Node) (id : JobId) (ps : PendingSubmit) (needed outstanding : Int)
      (found : m.pendingSubmits.lookup id = some ps)
      (h : needed = ps.needed ∨ ∃ slot st body, (st = kCreated ∨ st = kDuplicate) ∧
        Answers t m₀ (.replicate id slot) st body) :
      Move t m₀ m { m with
        pendingSubmits := m.pendingSubmits.insert id { ps with needed, outstanding } }
  | submitted (m : Node) (id : JobId) (ps : PendingSubmit) (st : Status)
      (found : m.pendingSubmits.lookup id = some ps)
      (h : (st = kCreated ∧ ps.needed ≤ 0) ∨ st = kNoQuorum) :
      Move t m₀ m (({ m with pendingSubmits := m.pendingSubmits.erase id } : Node).submitCb ps.cb
      st id)
  -- Confirmations.
  | reset (m : Node) (id : JobId) (j : Job) (found : m.find id = some j)
      (owned : j.owner = m.self) : Move t m₀ m { m with repair := m.repair.insert id 0 }
  | mark (m : Node) (id : JobId) (slot : Nat) (confirms : Confirms t m₀ id slot)
      (first : m.store = m₀.store) (settles : Settles t m₀ m id slot) :
      Move t m₀ m { m with repair := (m.markReplicaOk id slot).repair }
  -- Transitions.
  | begin_ (m : Node) (id : JobId) (l : Job) (r : Record) (d : DoneCb) (found : m.find id = some l)
      (owned : l.owner = m.self) (begins : Begins t m₀ m id l r d) (open_ : m.store.failed = false)
      (peers : l.peers m.self ≠ []) :
      Move t m₀ m { m with
        store := m.store.append r
        repair := m.repair.insert id 0
        qstates := m.qstates ++
          [{ done := d, needed := 1, outstanding := (l.peers m.self).length, fired := false }] }
  | beginAlone (m : Node) (id : JobId) (l : Job) (r : Record) (found : m.find id = some l)
      (owned : l.owner = m.self) (begins : Begins t m₀ m id l r .ignore)
      (open_ : m.store.failed = false) (peers : l.peers m.self = []) :
      Move t m₀ m { m with store := m.store.append r, repair := m.repair.insert id 0 }
  | grantAlone (m : Node) (id : JobId) (l : Job) (r : Record) (epoch leaseSeq worker : Nat)
      (found : m.find id = some l) (owned : l.owner = m.self)
      (begins : Begins t m₀ m id l r (.lease id epoch leaseSeq worker))
      (open_ : m.store.failed = false) (peers : l.peers m.self = []) :
      Move t m₀ m { m with
        store := m.store.append r
        repair := m.repair.insert id 0
        leaseDeadline := m.leaseDeadline.insert id (m.now + l.visibilityMs)
        events := .granted (.lease id epoch leaseSeq worker) (Node.grantOf id (r.on l)) m.now ::
          m.events }
  | ackAlone (m : Node) (id : JobId) (l : Job) (r : Record) (cb : AckCb)
      (found : m.find id = some l)
      (owned : l.owner = m.self) (begins : Begins t m₀ m id l r (.ack id cb))
      (open_ : m.store.failed = false) (peers : l.peers m.self = []) :
      Move t m₀ m
      (({ m with store := m.store.append r, repair := m.repair.insert id 0 } : Node).ackCb
        cb id true kCreated)
  -- Deciding a transition. The counters are written back with the decision.
  | miss (m : Node) (q : Nat) (s : QState) (fired : Bool) (state : m.qstates[q]? = some s)
      (h : s.fired = true → fired = true) :
      Move t m₀ m { m with
        qstates := m.qstates.set q { s with outstanding := s.outstanding - 1, fired } }
  | confirm (m : Node) (id : JobId) (slot : Nat) (member : Endpoint) (r : Record) (q : Nat)
      (s : QState) (body : Reply) (answers : Answers t m₀ (.apply id slot member r q) kCreated body)
      (state : m.qstates[q]? = some s) :
      Move t m₀ m { m with
        events := .applyAcked member r :: m.events
        qstates := m.qstates.set q
          { s with outstanding := s.outstanding - 1, needed := s.needed - 1, fired := true } }
  | grant (m : Node) (id id' : JobId) (slot : Nat) (member : Endpoint) (r : Record) (q : Nat)
      (s : QState) (body : Reply) (epoch leaseSeq worker : Nat) (j : Job)
      (answers : Answers t m₀ (.apply id slot member r q) kCreated body)
      (state : m.qstates[q]? = some s) (pending : s.fired = false)
      (isLease : s.done = .lease id' epoch leaseSeq worker) (found : m.find id' = some j)
      (first : m.store = m₀.store) (same : m.qstates = m₀.qstates) :
      Move t m₀ m { m with
        leaseDeadline := m.leaseDeadline.insert id' (m.now + j.visibilityMs)
        events := .granted (.lease id' epoch leaseSeq worker) (Node.grantOf id' j) m.now ::
          .applyAcked member r :: m.events
        qstates := m.qstates.set q
          { s with outstanding := s.outstanding - 1, needed := s.needed - 1, fired := true } }
  | completed (m : Node) (id id' : JobId) (slot : Nat) (member : Endpoint) (r : Record) (q : Nat)
      (s : QState) (body : Reply) (cb : AckCb)
      (answers : Answers t m₀ (.apply id slot member r q) kCreated body)
      (state : m.qstates[q]? = some s) (pending : s.fired = false) (isAck : s.done = .ack id' cb)
      (first : m.store = m₀.store) (same : m.qstates = m₀.qstates) :
      Move t m₀ m (({ m with
        events := .applyAcked member r :: m.events
        qstates := m.qstates.set q
          { s with outstanding := s.outstanding - 1, needed := s.needed - 1, fired := true } } :
          Node).ackCb cb id' true kCreated)
  | unlease (m : Node) (id : JobId) (l : Job) (q : Nat) (s : QState) (epoch leaseSeq worker : Nat)
      (store : Store) (found : m.find id = some l) (state : m.qstates[q]? = some s)
      (pending : s.fired = false) (isLease : s.done = .lease id epoch leaseSeq worker)
      (attempt : Attempt m.store (.expire id l.epoch l.leaseSeq) store) :
      Move t m₀ m { m with
        store
        qstates := m.qstates.set q { s with outstanding := s.outstanding - 1, fired := true } }
  -- Acks.
  | disarm (m : Node) (id : JobId) :
      Move t m₀ m { m with leaseDeadline := m.leaseDeadline.erase id }
  | expire (m : Node) (id : JobId) (j : Job) (deadline : Time)
      (armed : m.leaseDeadline.lookup id = some deadline) (due : deadline ≤ m.now)
      (found : m.find id = some j) (leased : j.state = .leased) (owned : j.owner = m.self) :
      Move t m₀ m { m with
        leaseDeadline := m.leaseDeadline.erase id
        events := .expired id j.leaseSeq m.now :: m.events }
  | nack (m : Node) (id : JobId) (j : Job) (epoch leaseSeq : Nat) (cb : AckCb)
      (acks : Acks t id epoch leaseSeq false cb) (found : m.find id = some j)
      (owned : j.owner = m.self) (current : Node.currentLease j epoch leaseSeq = true)
      (first : m.store = m₀.store) :
      Move t m₀ m { m with
        leaseDeadline := m.leaseDeadline.erase id
        events := .nacked id epoch leaseSeq m.now :: m.events }
  | complete (m : Node) (id : JobId) (j : Job) (epoch leaseSeq : Nat) (cb : AckCb)
      (acks : Acks t id epoch leaseSeq true cb) (found : m.find id = some j)
      (owned : j.owner = m.self) (open_ : j.state ≠ .done)
      (accepted : (Node.currentLease j epoch leaseSeq || Node.amnesty j epoch leaseSeq ||
        Node.lateAfterPark j epoch) = true) (first : m.store = m₀.store) :
      Move t m₀ m { m with
        leaseDeadline := m.leaseDeadline.erase id
        events := .doneStarted id epoch leaseSeq :: m.events }
  | ackDone (m : Node) (id : JobId) (j : Job) (epoch leaseSeq : Nat) (success : Bool) (cb : AckCb)
      (acks : Acks t id epoch leaseSeq success cb) (found : m.find id = some j)
      (owned : j.owner = m.self) (done : j.state = .done) (confirmed : id ∉ m.repair) :
      Move t m₀ m (m.ackCb cb id success kCreated)
  | ackPlain (m : Node) (id : JobId) (success : Bool) (cb : AckCb) (st : Status)
      (source : AckSource t m id cb) (h : success = false ∨ st ≠ kCreated) :
      Move t m₀ m (m.ackCb cb id success st)
  -- Claims.
  | seize (m : Node) (id : JobId) (l : Job) (found : m.find id = some l) (other : l.owner ≠ m.self)
      (active : l.terminal = false) (unclaimed : id ∉ m.claims) (open_ : m.store.failed = false)
      (trigger : t.seizes id = true) (admitting : m.draining = false) :
      Move t m₀ m { m with
        store := m.store.append (.takeover id ((l.epoch + 1) % 2 ^ 32) m.self)
        claims := m.claims.insert id (m.newClaim l ((l.epoch + 1) % 2 ^ 32)) }
  | merge (m : Node) (id : JobId) (dst : Endpoint) (body : Reply) (st : ClaimState) (bit : Nat)
      (answers : Answers t m₀ (.claim id dst) kCreated body)
      (standing : m.claims.lookup id = some st)
      (same : m.claims = m₀.claims) (first : m.store = m₀.store) :
      Move t m₀ m { m with
        claims := m.claims.insert id ((st.count bit).merge body.asClaimInfo) }
  | retry (m : Node) (id : JobId) (st : ClaimState) (next : Time)
      (standing : m.claims.lookup id = some st) :
      Move t m₀ m { m with claims := m.claims.insert id { st with nextRetry := next } }
  | dropClaim (m : Node) (id : JobId) (st : ClaimState) (standing : m.claims.lookup id = some st)
      (h : t.seizes id = false ∨ st.needed ≤ 0) : Move t m₀ m { m with claims := m.claims.erase id }
  | finalize (m : Node) (id : JobId) (st : ClaimState) (l j : Job) (s : Store)
      (deadlines : AList (fun _ : JobId => Time)) (standing : m.claims.lookup id = some st)
      (ripe : Ripe t m₀ m id st) (found : m.find id = some l) (owned : l.owner = m.self)
      (none_ : Node.inherits id st l = none → s = m.store)
      (some_ : ∀ r, Node.inherits id st l = some r → Attempt m.store r s)
      (after : s.table.find id = some j)
      (armed : ∀ id' d, deadlines.lookup id' = some d →
        m.leaseDeadline.lookup id' = some d ∨ (id' = id ∧ d = m.now + l.visibilityMs)) :
      Move t m₀ m { m with
        store := s
        claims := m.claims.erase id
        leaseDeadline := deadlines
        repair := m.repair.insert id 0
        events := .finalized j :: m.events }
  | compact (m : Node) (d : Disk) : Move t m₀ m { m with store := m.store.compact d }
  -- A new incarnation.
  | reboot (m : Node) (boot : Nat) (repair : AList (fun _ : JobId => Nat))
      (deadlines : AList (fun _ : JobId => Time)) (trigger : t = .input (.restart boot))
      (first : m.boot = m₀.boot ∧ m.boots = m₀.boots)
      (unconfirmed : ∀ id j, m.store.reopen.table.find id = some j → j.owner = m.self →
        repair.lookup id = some 0)
      (armed : ∀ id d, deadlines.lookup id = some d → ∃ j,
        m.store.reopen.table.find id = some j ∧ j.state = .leased ∧ j.owner = m.self ∧
          d = m.now + j.visibilityMs)
      (stored : m.store = m₀.store) :
      Move t m₀ m { m.reboot boot with repair, leaseDeadline := deadlines }

end Tautq
