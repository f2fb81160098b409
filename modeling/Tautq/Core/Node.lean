import Mathlib.Data.List.AList
import Tautq.Core.Store

/-!
# Node State

The state of one queue node: its store, its pending RPCs and the in-memory
bookkeeping of the protocol, with the primitives every handler is built from.

A node is single-threaded and event driven, so a handler is a function from
node states to node states. What it sends is appended to the node's `outbox`
and what it tells a client or commits to is recorded in `events`; neither is
ever shortened, so both double as the history a statement about a whole run
refers to. A callback handed to the RPC layer is a `Cont`, the closure's
captured values, kept in `calls` under the request id until a reply, a
timeout or a dead peer finishes the call.

The environment's choices inside one handler are the fields of `Sched`: which
sends the session refuses (the callback then runs at once, with `kBusy`),
which appends fail, and the order an unordered map is walked in. A crash in
the middle of a handler is a run whose appends fail from that point on, whose
later packets are never delivered, and which then restarts.

Three things are carried for the statements only and never read by a handler:
the request a response answers (`asked`), the incarnation that issued it
(`boot` of a request context), and the record a quorum commit is for.

## Main definitions

* `Request`, `Reply`, `Packet`: What travels between nodes.
* `Cont`, `SubmitCb`, `AckCb`, `DoneCb`: Captured callbacks.
* `Event`: The observable history of a node.
* `Node`: The node state.
* `Node.commit`, `Node.call`, `Node.respond`: Append a record, issue a
  request, answer one.
-/

namespace Tautq

/-- Milliseconds on a node's own monotone clock. -/
abbrev Time := Nat

/-- Status codes: the application space of `qstatus` and, from `0xFFFF0000`
    up, the ones the RPC layer synthesises. -/
abbrev Status := Nat

namespace Status

def kCreated : Status := 0
def kDuplicate : Status := 1
def kStaleEpoch : Status := 2
def kNoQuorum : Status := 3
def kInvalid : Status := 4
def kUnknownJob : Status := 5
def kNotOwner : Status := 6
def kNotLeased : Status := 7
def kNoJob : Status := 8
def kTransport : Status := 0xFFFF0000
def kTimeout : Status := 0xFFFF0001
def kPeerDown : Status := 0xFFFF0002
def kBusy : Status := 0xFFFF0004

end Status

open Status

/-- A client's submit request; zero limits mean the node's defaults. -/
structure SubmitParams where
  idemKey : Bytes
  url : Bytes
  body : Bytes
  visibilityMs : Nat := 0
  maxAttempts : Nat := 0
deriving DecidableEq, Repr, Inhabited

/-- Request bodies, by method. -/
inductive Request where
  | fwdSubmit (p : SubmitParams)
  | replicate (job : Job)
  | claim (id : JobId) (proposed : Nat) (newOwner : Endpoint)
  | resync (id : JobId)
  | fwdAck (id : JobId) (epoch leaseSeq : Nat) (success : Bool)
  | fwdStatus (id : JobId)
  | apply (rec : Record)
  | drainHandoff (id : JobId)
deriving DecidableEq, Repr, Inhabited

/-- Whether the handler may answer after it returned, on whatever session is
    then established; the other methods are answered on the spot. -/
def Request.deferred : Request → Bool
  | .fwdSubmit _ => true
  | .fwdAck _ _ _ _ => true
  | _ => false

/-- Response bodies. -/
inductive Reply where
  | empty
  | jobId (id : JobId)
  | job (job : Job)
  | claimInfo (state : JobState) (leaseSeq : Nat)
deriving DecidableEq, Repr, Inhabited

namespace Reply

/-- A response body read as a job id; a body shorter than one reads as the
    zero id. A serialised job starts with its id. -/
def asJobId : Reply → JobId
  | .jobId id => id
  | .job j => j.id
  | _ => {}

/-- A response body read as a serialised job. -/
def asJob : Reply → Option Job
  | .job j => some j
  | _ => none

/-- The state byte an enumerator is stored as. -/
def stateOfByte (b : Nat) : Option JobState :=
  match b with
  | 1 => some .ready
  | 2 => some .leased
  | 3 => some .done
  | 4 => some .deadLetter
  | _ => none

/-- A response body read as claim information: one state byte, then a
    little-endian 32-bit sequence number. Anything of at least five bytes is
    read so, whatever it was sent as. -/
def asClaimInfo : Reply → Option (Option JobState × Nat)
  | .empty => none
  | .claimInfo s q => some (some s, q)
  | .jobId id => some (stateOfByte (id.origin % 256), id.origin / 256 % 2 ^ 32)
  | .job j => some (stateOfByte (j.id.origin % 256), j.id.origin / 256 % 2 ^ 32)

end Reply

/-- The context a request handler answers through. -/
structure ReqCtx where
  src : Endpoint
  boot : Nat
  reqId : Nat
  asked : Request
deriving DecidableEq, Repr, Inhabited

/-- What travels between nodes. A response names only the request id it
    answers; the issuing incarnation and the request are history. -/
inductive Packet where
  | request (src dst : Endpoint) (boot reqId : Nat) (body : Request)
  | response (src dst : Endpoint) (boot reqId : Nat) (asked : Request) (status : Status)
      (body : Reply)
deriving DecidableEq, Repr, Inhabited

/-- Who hears the outcome of an owner-side submit: the local client, by the
    key it submitted, or a forwarding gateway. -/
inductive SubmitCb where
  | client (key : Bytes)
  | reply (ctx : ReqCtx)
deriving DecidableEq, Repr, Inhabited

/-- Who hears the outcome of an owner-side ack. -/
inductive AckCb where
  | client
  | reply (ctx : ReqCtx)
deriving DecidableEq, Repr, Inhabited

/-- What runs when a quorum commit is decided. -/
inductive DoneCb where
  | ignore
  | lease (id : JobId) (epoch leaseSeq worker : Nat)
  | ack (id : JobId) (cb : AckCb)
deriving DecidableEq, Repr, Inhabited

/-- A callback waiting for an RPC to finish, by the values it captured. -/
inductive Cont where
  | fwdSubmit (key : Bytes)
  | replicate (id : JobId) (slot : Nat)
  | apply (id : JobId) (slot : Nat) (member : Endpoint) (rec : Record) (q : Nat)
  | fwdAck
  | claim (id : JobId) (dst : Endpoint)
  | resync (id : JobId)
  | drainHandoff
  | fwdStatus (id : JobId) (rest : List Endpoint) (best : Option Job)
deriving DecidableEq, Repr, Inhabited

/-- A call in flight. -/
structure PendingCall where
  peer : Endpoint
  deadline : Time
  cont : Cont
deriving DecidableEq, Repr, Inhabited

/-- A submit waiting for its first replica. -/
structure PendingSubmit where
  cb : SubmitCb
  needed : Int
  outstanding : Int
deriving DecidableEq, Repr, Inhabited

/-- The shared counters of one quorum commit. -/
structure QState where
  done : DoneCb
  needed : Int
  outstanding : Int
  fired : Bool
deriving DecidableEq, Repr, Inhabited

/-- A takeover collecting grants. -/
structure ClaimState where
  proposed : Nat
  acks : Int
  needed : Int
  bestState : JobState
  bestSeq : Nat
  ackedMask : Nat
  nextRetry : Time
deriving DecidableEq, Repr, Inhabited

/-- What a worker receives with a granted lease. -/
structure LeaseGrant where
  id : JobId
  url : Bytes
  body : Bytes
  idemKey : Bytes
  epoch : Nat
  leaseSeq : Nat
  visibilityMs : Nat
  attempt : Nat
deriving DecidableEq, Repr, Inhabited

/-- The observable history: what clients and workers were told, and the
    commitments the protocol's claims are about. -/
inductive Event where
  /-- A client's submit was answered. -/
  | submitAnswered (key : Bytes) (status : Status) (id : JobId)
  /-- A lease call was refused. -/
  | leaseRefused (status : Status)
  /-- A lease was handed out, by the quorum commit of a lease record. -/
  | granted (rec : Record) (grant : LeaseGrant) (at_ : Time)
  /-- The owner accepted a worker's nack under the presented token. -/
  | nacked (id : JobId) (epoch leaseSeq : Nat) (at_ : Time)
  /-- The owner expired a lease. -/
  | expired (id : JobId) (leaseSeq : Nat) (at_ : Time)
  /-- The owner started a completion under the presented token. -/
  | doneStarted (id : JobId) (epoch leaseSeq : Nat)
  /-- The owner answered an ack. -/
  | ownerAcked (id : JobId) (success : Bool) (status : Status)
  /-- A forwarded ack was answered to the worker. -/
  | ackRelayed (status : Status)
  /-- A status query was answered. -/
  | statusAnswered (id : JobId) (status : Status) (best : Option Job)
  /-- A member acknowledged an Apply request. -/
  | applyAcked (member : Endpoint) (rec : Record)
  /-- A takeover was finalised; the copy right after it. -/
  | finalized (copy : Job)
  /-- The drain callback fired. -/
  | drained
deriving DecidableEq, Repr, Inhabited

/-- A node's configuration. -/
structure NodeConfig where
  members : List Endpoint
  defaultVisibilityMs : Nat := 30000
  defaultMaxAttempts : Nat := 5
  rpcTimeout : Nat := 1000
  repairInterval : Nat := 2000
deriving DecidableEq, Repr, Inhabited

/-- The environment's choices inside one handler, each list used up from the
    front: refused sends, the disk's answers to appends, walks of unordered
    maps. -/
structure Sched where
  busy : List Bool := []
  disk : List Disk := []
  jobOrders : List (List JobId) := []
  callOrders : List (List Nat) := []
deriving DecidableEq, Repr, Inhabited

/-- The state of one node. -/
structure Node where
  self : Endpoint
  cfg : NodeConfig
  boot : Nat
  store : Store := default
  nextJobSeq : Nat := 1
  nextReq : Nat := 1
  calls : AList (fun _ : Nat => PendingCall) := ∅
  pendingSubmits : AList (fun _ : JobId => PendingSubmit) := ∅
  repair : AList (fun _ : JobId => Nat) := ∅
  nextRepair : Time := 0
  ready : List JobId := []
  leaseDeadline : AList (fun _ : JobId => Time) := ∅
  notBefore : AList (fun _ : JobId => Time) := ∅
  qstates : List QState := []
  claims : AList (fun _ : JobId => ClaimState) := ∅
  resyncInflight : AList (fun _ : JobId => Int) := ∅
  draining : Bool := false
  drainCb : Bool := false
  nextClaimTick : Time := 0
  nextDrainTick : Time := 0
  now : Time := 0
  peers : List Endpoint := []
  sched : Sched := {}
  boots : List Nat := []
  outbox : List Packet := []
  events : List Event := []
deriving Inhabited

namespace Node

/-- The stored copy of a job. -/
def find (n : Node) (id : JobId) : Option Job :=
  n.store.table.find id

/-- Every endpoint believed alive, this node first, each listed once. -/
def alive (n : Node) : List Endpoint :=
  n.peers.foldl (fun out e => if e ∈ out then out else out ++ [e]) [n.self]

/-- Whether an endpoint is believed alive. -/
def isAlive (n : Node) (e : Endpoint) : Bool :=
  e = n.self || e ∈ n.peers

/-- The configured membership, this node first, each listed once. -/
def members (n : Node) : List Endpoint :=
  n.cfg.members.foldl (fun out e => if e ∈ out then out else out ++ [e]) [n.self]

/-- Record an event. The newest is first. -/
def emit (n : Node) (e : Event) : Node :=
  { n with events := e :: n.events }

/-- A walk of an unordered map's keys: the environment's order where it names
    keys of the map, the rest after. -/
def arrange {α : Type} [DecidableEq α] (order keys : List α) : List α :=
  (order.dedup.filter (· ∈ keys)) ++ keys.filter (· ∉ order)

/-- The order the next walk of a job map takes. -/
def walkJobs (n : Node) (keys : List JobId) : List JobId × Node :=
  (arrange (n.sched.jobOrders.headD []) keys,
    { n with sched := { n.sched with jobOrders := n.sched.jobOrders.tail } })

/-- The order the next walk of the call table takes. -/
def walkCalls (n : Node) (keys : List Nat) : List Nat × Node :=
  (arrange (n.sched.callOrders.headD []) keys,
    { n with sched := { n.sched with callOrders := n.sched.callOrders.tail } })

/-- Append a record durably and apply it, or fail for good. -/
def commit (n : Node) (r : Record) : Node × Bool :=
  let c := n.store.commit r (n.sched.disk.headD .durable)
  ({ n with store := c.1, sched := { n.sched with disk := n.sched.disk.tail } }, c.2)

/-- Compact the log. -/
def compact (n : Node) : Node :=
  { n with
    store := n.store.compact (n.sched.disk.headD .durable)
    sched := { n.sched with disk := n.sched.disk.tail } }

/-- Issue a request. A refused send runs the callback at once. -/
def call (n : Node) (dst : Endpoint) (body : Request) (k : Cont) (onBusy : Node → Node) : Node :=
  if n.sched.busy.headD false then
    onBusy { n with nextReq := n.nextReq + 1
                    sched := { n.sched with busy := n.sched.busy.tail } }
  else
    { n with
      nextReq := n.nextReq + 1
      sched := { n.sched with busy := n.sched.busy.tail }
      calls := n.calls.insert n.nextReq
        { peer := dst, deadline := n.now + n.cfg.rpcTimeout, cont := k }
      outbox := n.outbox ++ [.request n.self dst n.boot n.nextReq body] }

/-- Answer a request. -/
def respond (n : Node) (ctx : ReqCtx) (st : Status) (body : Reply) : Node :=
  { n with outbox := n.outbox ++ [.response n.self ctx.src ctx.boot ctx.reqId ctx.asked st body] }

/-- Run a submit callback. -/
def submitCb (n : Node) (cb : SubmitCb) (st : Status) (id : JobId) : Node :=
  match cb with
  | .client key => n.emit (.submitAnswered key st id)
  | .reply ctx => n.respond ctx st (.jobId id)

/-- Run an ack callback, the owner's answer being recorded. -/
def ackCb (n : Node) (cb : AckCb) (id : JobId) (success : Bool) (st : Status) : Node :=
  let n := n.emit (.ownerAcked id success st)
  match cb with
  | .client => n
  | .reply ctx => n.respond ctx st .empty

end Node

end Tautq
