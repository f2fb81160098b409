import Tautq.Lib.Hand
import Tautq.Theory.Birth

/-!
# The Account of a Node's Answers

A node owes an answer for every operation of a client and every request of a peer, and what it
owes is spread over its bookkeeping: a submit waits in `pendingSubmits`, a lease or an ack in the
counters of a commit, a forwarded operation in the callback of a call. Handlers move these duties
about, and in the middle of a handler some are in hand: a callback that was taken out of the call
table and has not run, a request that is about to be sent, an operation that is about to be
answered.

`Posting` lists the elementary changes of the bookkeeping together with what is in hand, and every
handler is a sequence of postings that starts with the duties its trigger brings and ends with
none. Some of them only carry things from the hand to the call table or back (`Carry`). A resync is
one posting: its own bookkeeping is not exact (`Safety.Resyncs`), and nothing else depends on it.

## Main definitions

* `Duty`: What is owed for an operation.
* `Node.told`, `Node.owed`, `Trigger.asks`: The duties done, those kept, and those a trigger brings.
* `Item`: What a handler has in hand.
* `Mark`: What the replies to a request are counted for.
* `Carry`, `Booking`, `Posting`: The elementary changes of the bookkeeping.
* `Clears`: Code that deals with what is in hand.
-/

namespace Tautq

open Status

/-! ### Duties -/

/-- What is owed: a callback of a client has to run, and a node that has asked for something has
    to hear. A forwarded ack is both, as the owner decides it like one of its own. -/
inductive Duty where
  | submit (key : Bytes)
  | lease
  | ack
  | status (id : JobId)
  | reply (ctx : ReqCtx)
deriving DecidableEq

/-- The duties an event fulfils. -/
def Event.fulfils : Event → List Duty
  | .submitAnswered key _ _ => [.submit key]
  | .leaseRefused _ => [.lease]
  | .granted _ _ _ => [.lease]
  | .ownerAcked _ _ _ => [.ack]
  | .ackRelayed _ => [.ack]
  | .statusAnswered id _ _ => [.status id]
  | .nacked .. | .expired .. | .doneStarted .. | .applyAcked .. | .finalized _ | .drained => []

/-- Whether a response turns a forwarded ack away: the node has no such job, or does not own it,
    and decides nothing. -/
def ReqCtx.turnedAway (ctx : ReqCtx) (st : Status) : Bool :=
  match ctx.asked with
  | .fwdAck _ _ _ _ => st = kUnknownJob ∨ st = kNotOwner
  | _ => false

/-- The duties a response to a request fulfils. -/
def ReqCtx.fulfils (ctx : ReqCtx) (st : Status) : List Duty :=
  (if ctx.turnedAway st then [.ack] else []) ++ [.reply ctx]

def Packet.fulfils : Packet → List Duty
  | .request _ _ _ _ _ => []
  | .response _ dst boot reqId asked st _ => ReqCtx.fulfils { src := dst, boot, reqId, asked } st

/-- The duty a submit callback stands for. -/
def SubmitCb.duty : SubmitCb → Duty
  | .client key => .submit key
  | .reply ctx => .reply ctx

/-- The duties an ack callback stands for. -/
def AckCb.owes : AckCb → List Duty
  | .client => [.ack]
  | .reply ctx => [.ack, .reply ctx]

/-- The duties the callback of a commit stands for. -/
def DoneCb.owes : DoneCb → List Duty
  | .ignore => []
  | .lease _ _ _ _ => [.lease]
  | .ack _ cb => cb.owes

/-- The duties a callback of a call stands for. -/
def Cont.owes : Cont → List Duty
  | .fwdSubmit key => [.submit key]
  | .fwdAck => [.ack]
  | .fwdStatus id _ _ => [.status id]
  | .replicate .. | .apply .. | .claim .. | .resync _ | .drainHandoff => []

def QState.owes (s : QState) : List Duty :=
  if s.fired then [] else s.done.owes

/-- The duties a node has done. -/
def Node.told (n : Node) : List Duty :=
  n.events.flatMap Event.fulfils ++ n.outbox.flatMap Packet.fulfils

/-- The duties a node keeps. -/
def Node.owed (n : Node) : List Duty :=
  n.pendingSubmits.entries.map (fun e => e.2.cb.duty) ++ n.qstates.flatMap QState.owes ++
    n.calls.entries.flatMap (fun e => e.2.cont.owes)

/-- The duties a request brings. -/
def ReqCtx.asks (ctx : ReqCtx) : List Duty :=
  match ctx.asked with
  | .fwdAck _ _ _ _ => [.ack, .reply ctx]
  | _ => [.reply ctx]

/-- The duties a trigger brings. -/
def Trigger.asks : Trigger → List Duty
  | .input (.submit p) => [.submit p.idemKey]
  | .input (.lease _) => [.lease]
  | .input (.ack _ _ _ _) => [.ack]
  | .input (.status id) => [.status id]
  | .input .tick | .input (.advance _) | .input (.view _) | .input (.peerDead _)
  | .input (.peerAlive _) | .input (.hello _) | .input .drain | .input .compact
  | .input (.restart _) => []
  | .packet (.request src _ boot reqId asked) => ReqCtx.asks { src, boot, reqId, asked }
  | .packet (.response ..) => []

/-! ### What is in hand -/

/-- What the replies to a request are counted for: a submit, a commit, a resync. -/
inductive Mark where
  | submit (id : JobId)
  | commit (q : Nat)
  | resync (id : JobId)
deriving DecidableEq

/-- What the reply to a call is counted for. -/
def Cont.mark : Cont → Option Mark
  | .replicate id _ => some (.submit id)
  | .apply _ _ _ _ q => some (.commit q)
  | .resync id => some (.resync id)
  | .fwdSubmit _ | .fwdAck | .fwdStatus .. | .claim .. | .drainHandoff => none

/-- What a handler has in hand: a callback whose request is about to be sent, a callback of a
    finished call that is about to run, a duty, the leave to mint one job. -/
inductive Item where
  | fresh (k : Cont)
  | taken (reqId : Nat) (k : Cont)
  | duty (d : Duty)
  | ticket
deriving DecidableEq

def duties (ds : List Duty) : List Item :=
  ds.map .duty

/-- Whether a trigger may mint a job. -/
def Trigger.mints : Trigger → Bool
  | .input (.submit _) => true
  | .packet (.request _ _ _ _ (.fwdSubmit _)) => true
  | _ => false

/-- What a handler starts with. -/
def Trigger.inHand (t : Trigger) : List Item :=
  (if t.mints then [.ticket] else []) ++ duties t.asks

/-! ### Postings -/

/-- Nothing changes that the account is about, but what was told; time may pass. -/
structure Unmoved (n n' : Node) : Prop where
  self : n'.self = n.self
  cfg : n'.cfg = n.cfg
  now : n.now ≤ n'.now
  boot : n'.boot = n.boot
  nextJobSeq : n'.nextJobSeq = n.nextJobSeq
  nextReq : n'.nextReq = n.nextReq
  calls : n'.calls = n.calls
  pendingSubmits : n'.pendingSubmits = n.pendingSubmits
  qstates : n'.qstates = n.qstates
  resyncInflight : n'.resyncInflight = n.resyncInflight
  busy : n'.sched.busy <:+ n.sched.busy

/-- Nothing changes that the account is about; time may pass. -/
structure OffBook (n n' : Node) : Prop extends Unmoved n n' where
  told : n'.told = n.told

/-- What the account is about. -/
def Node.books (n : Node) :=
  (n.self, n.cfg, n.now, n.boot, n.nextJobSeq, n.nextReq, n.calls, n.pendingSubmits, n.qstates,
    n.resyncInflight, n.outbox, n.events, n.sched.busy)

/-- The id of the next job. -/
abbrev Node.nextId (n : Node) : JobId :=
  mintId n.self n.boot n.nextJobSeq

/-- Something is carried from the hand into the call table, or back, or is dropped. -/
inductive Carry (n : Node) : List Item → Node → List Item → Prop where
  | waive : Carry n [.ticket] n []
  | spoil : Carry n [.ticket] { n with nextJobSeq := n.nextJobSeq + 1 } []
  | sent (dst : Endpoint) (body : Request) (k : Cont) : Carry n [.fresh k] (n.sent dst body k) []
  | refused (k : Cont) : Carry n [.fresh k] { n with nextReq := n.nextReq + 1 } [.taken n.nextReq k]
  | finish (reqId : Nat) (c : PendingCall) (found : n.calls.lookup reqId = some c) :
      Carry n [] { n with calls := n.calls.erase reqId } [.taken reqId c.cont]

/-- An elementary change of the bookkeeping that has nothing to do with a resync's requests. -/
inductive Booking (n : Node) : List Item → Node → List Item → Prop where
  | carry {n' : Node} {xs ys : List Item} (carry : Carry n xs n' ys) : Booking n xs n' ys
  | tell {n' : Node} (ds : List Duty) (same : Unmoved n n') (told : n'.told.Perm (ds ++ n.told)) :
      Booking n (duties ds) n' []
  | ask (k : Cont) (mark : k.mark = none) : Booking n (duties k.owes) n [.fresh k]
  | resend (id : JobId) (slot : Nat) : Booking n [] n [.fresh (.replicate id slot)]
  | ran (reqId : Nat) (k : Cont) (mark : k.mark = none) :
      Booking n [.taken reqId k] n (duties k.owes)
  -- Submits.
  | await (cb : SubmitCb) (slots : List Nat) (some_ : slots ≠ []) :
      Booking n [.ticket, .duty cb.duty]
        { n with
          nextJobSeq := n.nextJobSeq + 1
          pendingSubmits := n.pendingSubmits.insert n.nextId ⟨cb, 1, slots.length⟩ }
        (slots.map (fun slot => .fresh (.replicate n.nextId slot)))
  | lone (ps : PendingSubmit) :
      Booking n [.ticket]
        { n with
          nextJobSeq := n.nextJobSeq + 1
          pendingSubmits := (n.pendingSubmits.insert n.nextId ps).erase n.nextId } []
  | late (reqId : Nat) (id : JobId) (slot : Nat) (none_ : n.pendingSubmits.lookup id = none) :
      Booking n [.taken reqId (.replicate id slot)] n []
  | count (reqId : Nat) (id : JobId) (slot : Nat) (ps : PendingSubmit) (needed : Int)
      (found : n.pendingSubmits.lookup id = some ps) (more : ps.outstanding - 1 ≠ 0) :
      Booking n [.taken reqId (.replicate id slot)]
        { n with pendingSubmits :=
            n.pendingSubmits.insert id { ps with outstanding := ps.outstanding - 1, needed } } []
  | decide (reqId : Nat) (id : JobId) (slot : Nat) (ps ps' : PendingSubmit)
      (found : n.pendingSubmits.lookup id = some ps) :
      Booking n [.taken reqId (.replicate id slot)]
        { n with pendingSubmits := (n.pendingSubmits.insert id ps').erase id } [.duty ps.cb.duty]
  -- Commits.
  | commit (id : JobId) (r : Record) (done : DoneCb) (peers : List (Nat × Endpoint))
      (some_ : peers ≠ []) :
      Booking n (duties done.owes)
        { n with qstates := n.qstates ++
            [{ done, needed := 1, outstanding := peers.length, fired := false }] }
        (peers.map (fun s => .fresh (.apply id s.1 s.2 r n.qstates.length)))
  | stray (reqId : Nat) (id : JobId) (slot : Nat) (member : Endpoint) (r : Record) (q : Nat)
      (none_ : n.qstates[q]? = none) : Booking n [.taken reqId (.apply id slot member r q)] n []
  | tally (reqId : Nat) (id : JobId) (slot : Nat) (member : Endpoint) (r : Record) (q : Nat)
      (s : QState) (needed : Int) (found : n.qstates[q]? = some s)
      (more : s.fired = true ∨ s.outstanding - 1 ≠ 0) :
      Booking n [.taken reqId (.apply id slot member r q)]
        { n with qstates := n.qstates.set q { s with outstanding := s.outstanding - 1, needed } } []
  | settle (reqId : Nat) (id : JobId) (slot : Nat) (member : Endpoint) (r : Record) (q : Nat)
      (s s' : QState) (found : n.qstates[q]? = some s) (open_ : s.fired = false)
      (fired : s'.fired = true) :
      Booking n [.taken reqId (.apply id slot member r q)]
        { n with qstates := n.qstates.set q s' } (duties s.done.owes)
  | resynced (reqId : Nat) (id : JobId) (counters : AList (fun _ : JobId => Int))
      (counted : n.resyncCountdown id = { n with resyncInflight := counters }) :
      Booking n [.taken reqId (.resync id)] { n with resyncInflight := counters } []

/-- An elementary change of the bookkeeping. -/
inductive Posting (n : Node) : List Item → Node → List Item → Prop where
  | entry {n' : Node} {xs ys : List Item} (entry : Booking n xs n' ys) : Posting n xs n' ys
  | resync (id : JobId) : Posting n [] (n.resyncJob id) []

/-- Code that deals with what is in hand. -/
abbrev Clears (n : Node) (items : List Item) (n' : Node) : Prop :=
  Turns Posting n items n' []

end Tautq
