import Mathlib.Logic.Function.Basic
import Tautq.Core.Failover
import Tautq.Lib.Run

/-!
# The Cluster

A set of nodes and the packets they sent. One step lets one node handle one
trigger: something its own environment does to it, or a packet some node
sent. A packet is delivered at most once, in any order, late or never.

Two things are assumed of the environment, both promised by the program's own
comments: the boot ids of a node's incarnations differ in their low 32 bits,
and an incarnation mints fewer than `2 ^ 32` ids. A response to a method that
is answered on the spot travels on the session of the request and so reaches
only the incarnation that asked; a response given later travels on whatever
session stands then and can reach a later incarnation.

## Main definitions

* `Input`, `Trigger`, `Node.react`: What can happen to a node.
* `Cluster`, `Deployment`, `Deployment.init`: The system and its start.
* `Act`, `Cluster.step`, `Cluster.exec`: Steps and runs.
* `Cluster.Meets`: Every step of a run meets a condition on the state before
  it.
-/

namespace Tautq

/-- What a node's own environment does to it. -/
inductive Input where
  | submit (p : SubmitParams)
  | lease (worker : Nat)
  | ack (id : JobId) (epoch leaseSeq : Nat) (success : Bool)
  | status (id : JobId)
  | tick
  | advance (d : Time)
  | view (peers : List Endpoint)
  | peerDead (p : Endpoint)
  | peerAlive (p : Endpoint)
  /-- A peer's greeting carries a new boot id: its session is torn down. -/
  | hello (p : Endpoint)
  | drain
  /-- The log is compacted. -/
  | compact
  | restart (boot : Nat)
deriving DecidableEq, Repr, Inhabited

/-- What a node handles in one step. -/
inductive Trigger where
  | input (i : Input)
  | packet (p : Packet)
deriving DecidableEq, Repr, Inhabited

namespace Packet

/-- The sender. -/
def src : Packet → Endpoint
  | .request s _ _ _ _ => s
  | .response s _ _ _ _ _ _ => s

/-- The addressee. -/
def dst : Packet → Endpoint
  | .request _ d _ _ _ => d
  | .response _ d _ _ _ _ _ => d

end Packet

namespace Node

/-- Handle a request. -/
def serve (n : Node) (ctx : ReqCtx) : Node :=
  match ctx.asked with
  | .fwdSubmit p => n.handleFwdSubmit ctx p
  | .replicate j => n.handleReplicate ctx j
  | .claim id proposed newOwner => n.handleClaim ctx id proposed newOwner
  | .resync id => n.handleResync ctx id
  | .fwdAck id epoch leaseSeq success => n.handleFwdAck ctx id epoch leaseSeq success
  | .fwdStatus id => n.handleFwdStatus ctx id
  | .apply rec => n.handleApply ctx rec
  | .drainHandoff id => n.handleDrainHandoff ctx id

/-- Handle a packet. -/
def receive (n : Node) : Packet → Node
  | .request src _ boot reqId body => n.serve { src, boot, reqId, asked := body }
  | .response _ _ _ reqId _ st body => n.finishCall st body reqId

/-- Handle an input. -/
def perform (n : Node) : Input → Node
  | .submit p => n.submit p
  | .lease worker => n.lease worker
  | .ack id epoch leaseSeq success => n.ack id epoch leaseSeq success
  | .status id => n.status id
  | .tick => n.tick
  | .advance d => { n with now := n.now + d }
  | .view peers => { n with peers }
  | .peerDead p => n.onPeerDead p
  | .peerAlive p => n.onPeerAlive p
  | .hello p => n.failCallsTo p
  | .drain => n.drain
  | .compact => n.compact
  | .restart boot => n.restart boot

/-- Handle a trigger. -/
def react (n : Node) : Trigger → Node
  | .input i => n.perform i
  | .packet p => n.receive p

/-- What the environment owes this node: fresh boot ids, fewer than `2 ^ 32`
    minted ids, and no response on a session of an earlier incarnation. -/
def admits (n : Node) : Trigger → Bool
  | .input (.restart boot) => (boot % 2 ^ 32) ∉ (n.boot :: n.boots).map (· % 2 ^ 32)
  | .input (.submit _) => n.nextJobSeq < 2 ^ 32
  | .packet (.request _ _ _ _ (.fwdSubmit _)) => n.nextJobSeq < 2 ^ 32
  | .packet (.response _ _ boot _ asked _ _) => asked.deferred || boot = n.boot
  | _ => true

end Node

/-- The nodes, and which packets have been delivered: the sender and the
    position in its outbox. -/
structure Cluster where
  members : List Endpoint
  node : Endpoint → Node
  taken : List (Endpoint × Nat) := []

/-- How a cluster is set up. The empty endpoint names no node. -/
structure Deployment where
  members : List Endpoint
  cfg : Endpoint → NodeConfig
  boot : Endpoint → Nat
  real : ({} : Endpoint) ∉ members

/-- Every node fresh, on an empty log. -/
def Deployment.init (d : Deployment) : Cluster where
  members := d.members
  node := fun e => { self := e, cfg := d.cfg e, boot := d.boot e }

/-- One step of the cluster, with the environment's choices inside it. -/
inductive Act where
  | input (dst : Endpoint) (sched : Sched) (i : Input)
  | deliver (src : Endpoint) (k : Nat) (sched : Sched)
deriving DecidableEq, Repr, Inhabited

namespace Cluster

/-- The packet at a position of a node's outbox, unless it was delivered. -/
def pending (c : Cluster) (src : Endpoint) (k : Nat) : Option Packet :=
  if (src, k) ∈ c.taken then none else (c.node src).outbox[k]?

/-- The node and the trigger an act is about. -/
def target (c : Cluster) : Act → Option (Endpoint × Trigger)
  | .input dst _ i => some (dst, .input i)
  | .deliver src k _ => (c.pending src k).map (fun p => (p.dst, .packet p))

/-- The environment's choices in an act. -/
def choices : Act → Sched
  | .input _ sched _ => sched
  | .deliver _ _ sched => sched

/-- The packets delivered once an act has happened. -/
def takenBy (c : Cluster) : Act → List (Endpoint × Nat)
  | .input _ _ _ => c.taken
  | .deliver src k _ => (src, k) :: c.taken

/-- Replace one node. -/
def set (c : Cluster) (e : Endpoint) (n : Node) : Cluster :=
  { c with node := Function.update c.node e n }

/-- One step: a member handles an admissible trigger. -/
def step (c : Cluster) (a : Act) : Option Cluster :=
  match c.target a with
  | none => none
  | some (e, t) =>
    if e ∈ c.members ∧ (c.node e).admits t then
      some { c.set e (({ c.node e with sched := choices a } : Node).react t) with
        taken := c.takenBy a }
    else none

/-- A condition on what a node is about to handle, in the state before. -/
abbrev Cond := Cluster → Endpoint → Trigger → Prop

/-- Whether an act meets a condition. -/
def Allows (K : Cond) (c : Cluster) (a : Act) : Prop :=
  ∀ x ∈ c.target a, K c x.1 x.2

instance (K : Cond) [∀ c e t, Decidable (K c e t)] (c : Cluster) (a : Act) :
    Decidable (Allows K c a) :=
  match h : c.target a with
  | none => .isTrue (by simp [Allows, h])
  | some x => decidable_of_iff (K c x.1 x.2) (by simp [Allows, h])

/-- A run. -/
abbrev exec (c : Cluster) (as : List Act) : Option Cluster :=
  Run.exec step c as

/-- Whether every step of a run meets a condition. -/
abbrev Meets (K : Cond) (c : Cluster) (as : List Act) : Prop :=
  Run.Meets step (Allows K) c as

end Cluster

end Tautq
