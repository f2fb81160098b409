import Mathlib.Logic.Function.Basic
import Tautq.Core.Codec
import Tautq.Core.Node

/-!
# Calls Between Nodes

The layer between the queue nodes and their sockets. A call is a request on the session
with a peer and an entry of the call table; its callback runs when a response with its
request id arrives, when its deadline has passed, or when the peer is declared dead or found
to have restarted. A session with a peer stands only after both sides have exchanged their
boot ids in greetings.

What a callback does is part of the model. It is a list of actions, calls with callbacks of
their own among them, and runs in the middle of whatever loop has ended the call. The
session library is not modelled: whether it accepts a frame is a choice of the environment,
and a session is known by when it was created.

A request carries the incarnation that asked and a response the context it answers. Both are
the model's bookkeeping, as are the histories at the end of the state; the program sees the
request id only.

## Main definitions

* `Hello`, `Frame`, `ReqCtx`: What nodes send each other, and what a handler is given.
* `Action`: What the application does: it calls, it responds, it lets go of a request.
* `Peer`, `PendingCall`, `RpcNode`: The state.
* `RpcNode.act`, `RpcNode.acts`: Calls and responses, with the callbacks they run.
* `RpcNode.handleHello`, `RpcNode.dispatch`, `RpcNode.peerDead`, `RpcNode.tick`: Handlers.
* `Input`, `RpcNode.step`: What happens to a node.
-/

namespace Tautq.Rpc

open Status

/-- The body of a call does not fit a datagram. -/
def kTooLarge : Status := 0xFFFF0003

/-- What a request without a handler is answered. -/
def kUnknownMethod : Status := 0xFFFFFFFF

def kHelloRetry : Time := 200

def kStrangerInterval : Time := 1000

/-- A greeting, or the acknowledgement of one. -/
structure Hello where
  isAck : Bool
  senderBoot : Nat
  echoBoot : Nat := 0
deriving DecidableEq, Repr

/-- What a request handler is given; `boot` is the incarnation that asked. -/
structure ReqCtx where
  src : Endpoint
  reqId : Nat
  method : UInt8
  boot : Nat
deriving DecidableEq, Repr

/-- A message on a session. -/
inductive Frame where
  | request (method : UInt8) (reqId : Nat) (body : Bytes) (boot : Nat)
  | response (ctx : ReqCtx) (st : Status) (body : Bytes)
deriving DecidableEq, Repr

/-- What the application does: it calls, it responds to a request, or it lets go of the context
    of one. The actions of a call are those of its callback. -/
inductive Action where
  | call (dst : Endpoint) (method : UInt8) (body : Bytes) (timeout : Time) (cb : List Action)
  | respond (ctx : ReqCtx) (st : Status) (body : Bytes)
  | release (ctx : ReqCtx)

/-- A peer. Its session is known by the time it was created. -/
structure Peer where
  session : Option Nat := none
  remoteBoot : Nat := 0
  acked : Bool := false
  nextHello : Time := 0
  pending : List Frame := []
deriving DecidableEq, Repr

/-- The handshake is complete, and the session stands. -/
def Peer.established (p : Peer) : Bool :=
  p.remoteBoot ≠ 0 && p.acked && p.session.isSome

/-- An entry of the call table; `token` is the number of the call. -/
structure PendingCall where
  peer : Endpoint
  deadline : Time
  token : Nat
  cb : List Action

/-- A call that was made; its request id is zero if it was too large to get one. -/
structure Issued where
  dst : Endpoint
  reqId : Nat
  boot : Nat
  deadline : Time
deriving DecidableEq, Repr

/-- Why a callback runs: the layer itself has ended the call, or a response has arrived. -/
inductive Cause where
  | layer
  | wire (src : Endpoint) (ctx : ReqCtx) (body : Bytes)
deriving DecidableEq, Repr

/-- A callback that has run. -/
structure Fired where
  token : Nat
  status : Status
  boot : Nat
  cause : Cause
deriving DecidableEq, Repr

/-- The environment of one step: its number in the run, and the choices in it, which sends the
    sessions accept and the orders in which the call table is walked. -/
structure Env where
  stamp : Nat := 0
  sends : List Bool := []
  orders : List (List Nat) := []

/-- The state of one node. The fields from `died` on are its history; `died` has the step in
    which the last session with a peer was destroyed. -/
structure RpcNode where
  self : Endpoint
  boot : Nat
  handlers : List UInt8
  now : Time := 0
  peers : AList (fun _ : Endpoint => Peer) := ∅
  calls : AList (fun _ : Nat => PendingCall) := ∅
  nextReq : Nat := 1
  strangerNext : AList (fun _ : Endpoint => Time) := ∅
  ctxs : List ReqCtx := []
  env : Env := {}
  died : Endpoint → Nat := fun _ => 0
  boots : List Nat := []
  issued : List Issued := []
  fired : List Fired := []
  responded : List (ReqCtx × Status × Bytes) := []
  hellos : List (Endpoint × Hello) := []
  frames : List (Endpoint × Frame) := []

namespace RpcNode

/-- A peer, with the values of a new entry if there is none. -/
def peer (n : RpcNode) (a : Endpoint) : Peer :=
  (n.peers.lookup a).getD {}

def setPeer (n : RpcNode) (a : Endpoint) (p : Peer) : RpcNode :=
  { n with peers := n.peers.insert a p }

/-- The session accepts the next frame. -/
def accepts (n : RpcNode) : Bool :=
  n.env.sends.headD true

/-- Hand a frame to the session of a peer. -/
def send (n : RpcNode) (a : Endpoint) (f : Frame) : RpcNode :=
  { n with
    env := { n.env with sends := n.env.sends.tail }
    frames := if n.accepts then n.frames ++ [(a, f)] else n.frames }

def sendHello (n : RpcNode) (a : Endpoint) : RpcNode :=
  { n.setPeer a { n.peer a with nextHello := n.now + kHelloRetry } with
    hellos := n.hellos ++ [(a, { isAck := false, senderBoot := n.boot })] }

/-- A callback runs. -/
def fire (n : RpcNode) (token : Nat) (st : Status) (cause : Cause) : RpcNode :=
  { n with fired := n.fired ++ [{ token, status := st, boot := n.boot, cause }] }

/-- A call is made. -/
def issue (n : RpcNode) (dst : Endpoint) (reqId : Nat) (timeout : Time) : RpcNode :=
  { n with issued := n.issued ++ [{ dst, reqId, boot := n.boot, deadline := n.now + timeout }] }

/-- Respond to a request. The application has its contexts from the handlers' calls. -/
def respond (n : RpcNode) (ctx : ReqCtx) (st : Status) (body : Bytes) : RpcNode :=
  if ctx ∈ n.ctxs ∧ (n.peer ctx.src).established then
    { n.send ctx.src (.response ctx st body) with
      responded := if n.accepts then n.responded ++ [(ctx, st, body)] else n.responded }
  else n

/-- Let go of the context of a request. -/
def release (n : RpcNode) (ctx : ReqCtx) : RpcNode :=
  { n with ctxs := n.ctxs.erase ctx }

/-- Queue a frame until the handshake is complete, and greet the peer if it is time. -/
def queueFrame (n : RpcNode) (a : Endpoint) (f : Frame) : RpcNode :=
  let n := n.setPeer a { n.peer a with pending := (n.peer a).pending ++ [f] }
  if (n.peer a).nextHello ≤ n.now then n.sendHello a else n

/-- Enter a call into the table, under the next request id. -/
def enter (n : RpcNode) (dst : Endpoint) (timeout : Time) (cb : List Action) : RpcNode :=
  { n.issue dst n.nextReq timeout with
    nextReq := n.nextReq + 1
    calls := n.calls.insert n.nextReq
      { peer := dst, deadline := n.now + timeout, token := n.issued.length, cb } }

mutual

/-- One action. A call that fails here runs its callback before it returns. -/
def act (n : RpcNode) : Action → RpcNode
  | .call dst method body timeout cb =>
    if kMaxRpcBody < body.length then
      acts ((n.issue dst 0 timeout).fire n.issued.length kTooLarge .layer) cb
    else
      let frame := .request method n.nextReq body n.boot
      if (n.peer dst).established then
        if n.accepts then (n.send dst frame).enter dst timeout cb
        else
          acts ({ (n.send dst frame).issue dst n.nextReq timeout with
            nextReq := n.nextReq + 1 }.fire n.issued.length kBusy .layer) cb
      else (n.queueFrame dst frame).enter dst timeout cb
  | .respond ctx st body => n.respond ctx st body
  | .release ctx => n.release ctx

/-- Actions in their order. -/
def acts (n : RpcNode) : List Action → RpcNode
  | [] => n
  | a :: as => acts (act n a) as

end

/-- End a call, if it is still open. -/
def finishCall (n : RpcNode) (st : Status) (cause : Cause) (id : Nat) : RpcNode :=
  match n.calls.lookup id with
  | none => n
  | some c => acts ({ n with calls := n.calls.erase id }.fire c.token st cause) c.cb

/-- The open calls with a property, in the order of the next walk. -/
def openCalls (n : RpcNode) (p : PendingCall → Bool) : List Nat :=
  (Node.arrange (n.env.orders.headD []) n.calls.keys).filter fun id => (n.calls.lookup id).any p

/-- End all calls with a property. They are collected first: callbacks change the table. -/
def finishAll (n : RpcNode) (p : PendingCall → Bool) (st : Status) : RpcNode :=
  (n.openCalls p).foldl (finishCall · st .layer ·)
    { n with env := { n.env with orders := n.env.orders.tail } }

def failCallsTo (n : RpcNode) (a : Endpoint) : RpcNode :=
  n.finishAll (fun c => c.peer = a) kPeerDown

/-- Drop the session with a peer. -/
def dropSession (n : RpcNode) (a : Endpoint) : RpcNode :=
  { n.setPeer a { n.peer a with session := none, pending := [], nextHello := 0 } with
    died := if (n.peer a).session.isSome then Function.update n.died a n.env.stamp else n.died }

/-- Drop the session with a peer, and fail the calls to it. -/
def teardown (n : RpcNode) (a : Endpoint) : RpcNode :=
  (n.dropSession a).failCallsTo a

/-- Move queued frames into the session until it refuses one. -/
def flushPending (n : RpcNode) (a : Endpoint) : List Frame → RpcNode
  | [] => n
  | f :: fs =>
    if n.accepts then
      ((n.send a f).setPeer a { n.peer a with pending := fs }).flushPending a fs
    else n.send a f

/-- Create the session, and flush what is queued. -/
def establish (n : RpcNode) (a : Endpoint) : RpcNode :=
  (n.setPeer a { n.peer a with session := some n.env.stamp }).flushPending a (n.peer a).pending

/-- The peer's greeting tells of another boot than the session was built against. -/
def restarted (n : RpcNode) (src : Endpoint) (h : Hello) : Bool :=
  (n.peer src).remoteBoot ≠ 0 && (n.peer src).remoteBoot ≠ h.senderBoot

/-- A greeting's boot is noted. If it is a new one, the session goes first, and the peer has not
    confirmed this node's boot. -/
def noteBoot (n : RpcNode) (src : Endpoint) (h : Hello) : RpcNode :=
  let n :=
    if n.restarted src h then
      let n := n.teardown src
      n.setPeer src { n.peer src with acked := false }
    else n
  n.setPeer src { n.peer src with remoteBoot := h.senderBoot }

/-- A greeting is acknowledged. -/
def acknowledge (n : RpcNode) (src : Endpoint) (h : Hello) : RpcNode :=
  { n with
    hellos := n.hellos ++
      [(src, { isAck := true, senderBoot := n.boot, echoBoot := h.senderBoot })] }

/-- The own half of the handshake is begun in the same round trip. -/
def greetBack (n : RpcNode) (src : Endpoint) : RpcNode :=
  if !(n.peer src).acked ∧ (n.peer src).nextHello ≤ n.now then n.sendHello src else n

/-- A greeting: note the boot, acknowledge it, and complete the own half of the handshake. -/
def handleGreeting (n : RpcNode) (src : Endpoint) (h : Hello) : RpcNode :=
  let n := ((n.noteBoot src h).acknowledge src h).greetBack src
  if (n.peer src).remoteBoot ≠ 0 ∧ (n.peer src).acked ∧ (n.peer src).session = none then
    n.establish src
  else n

/-- An acknowledgement: it counts if it is for the present boot. -/
def handleAck (n : RpcNode) (src : Endpoint) (h : Hello) : RpcNode :=
  if h.echoBoot ≠ n.boot then n
  else
    let n := if n.restarted src h then n.teardown src else n
    let n := n.setPeer src { n.peer src with remoteBoot := h.senderBoot, acked := true }
    if (n.peer src).session = none then n.establish src else n

/-- A datagram of the handshake. Its sender has an entry from then on. -/
def handleHello (n : RpcNode) (src : Endpoint) (h : Hello) : RpcNode :=
  let n := n.setPeer src (n.peer src)
  if h.isAck then n.handleAck src h else n.handleGreeting src h

/-- Traffic from a peer without a session: greet it, but not too often. -/
def handleStranger (n : RpcNode) (src : Endpoint) : RpcNode :=
  if n.now < (n.strangerNext.lookup src).getD 0 then n
  else
    { n with strangerNext := n.strangerNext.insert src (n.now + kStrangerInterval) }.sendHello src

/-- A message from a session: end a call, or hand a request to its handler, which does `as`. The
    handler may keep the context; without a handler it is gone at once. -/
def dispatch (n : RpcNode) (src : Endpoint) (as : List Action) : Frame → RpcNode
  | .response ctx st body => n.finishCall st (.wire src ctx body) ctx.reqId
  | .request method reqId _ boot =>
    let ctx : ReqCtx := { src, reqId, method, boot }
    let n := { n with ctxs := n.ctxs ++ [ctx] }
    if method ∈ n.handlers then n.acts as else (n.respond ctx kUnknownMethod []).release ctx

/-- A datagram of a session: it goes to the session with the sender, if there is one. -/
def receive (n : RpcNode) (src : Endpoint) (f : Frame) (as : List Action) : RpcNode :=
  if (n.peer src).session.isSome then n.dispatch src as f else n.handleStranger src

/-- The peer was declared dead. -/
def peerDead (n : RpcNode) (a : Endpoint) : RpcNode :=
  if (n.peers.lookup a).isSome then
    let n := n.teardown a
    { n with peers := n.peers.erase a }
  else n.failCallsTo a

/-- The timers of one peer. -/
def tickPeer (n : RpcNode) (a : Endpoint) : RpcNode :=
  if (n.peer a).session.isSome then n.flushPending a (n.peer a).pending
  else if (n.peer a).pending ≠ [] ∧ (n.peer a).nextHello ≤ n.now then n.sendHello a
  else n

/-- The timers, and then the calls whose deadline has passed. -/
def tick (n : RpcNode) : RpcNode :=
  (n.peers.keys.foldl tickPeer n).finishAll (fun c => c.deadline ≤ n.now) kTimeout

end RpcNode

/-- What happens to a node. -/
inductive Input where
  | act (as : List Action)
  | hello (src : Endpoint) (h : Hello)
  | frame (src : Endpoint) (f : Frame) (as : List Action)
  | peerDead (a : Endpoint)
  | tick
  | advance (d : Time)

namespace RpcNode

def react (n : RpcNode) : Input → RpcNode
  | .act as => n.acts as
  | .hello src h => n.handleHello src h
  | .frame src f as => n.receive src f as
  | .peerDead a => n.peerDead a
  | .tick => n.tick
  | .advance d => { n with now := n.now + d }

/-- One step, in its environment. -/
def step (n : RpcNode) (env : Env) (i : Input) : RpcNode :=
  { n with env }.react i

/-- The process is started again in some step: all is new but the histories. -/
def restart (n : RpcNode) (stamp boot : Nat) : RpcNode where
  self := n.self
  boot := boot
  handlers := n.handlers
  now := n.now
  died := fun a => if (n.peer a).session.isSome then stamp else n.died a
  boots := n.boot :: n.boots
  issued := n.issued
  fired := n.fired
  responded := n.responded

end RpcNode

end Tautq.Rpc
