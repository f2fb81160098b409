import Tautq.Core.Lease

/-!
# Failover

Takeover, drain and the reactions to membership verdicts. A successor commits
its takeover locally first, then collects grants from the other pinned
members, merging what they knew before they granted, and becomes the active
owner with a majority of the pinned set counting itself. A drain is the same
takeover, invited by the owner.

A claim's grants are counted by pinned slot. A reply is counted against
whatever claim of the job stands when it arrives: the callback captured the
job and the member, not the epoch it asked for.

## Main definitions

* `Node.finalizeTakeover`: Becoming the active owner.
* `Node.onClaimReply`, `Node.claimSend`, `Node.startTakeover`,
  `Node.claimTick`: The claimer's side.
* `Node.handleClaim`: The granting side.
* `Node.drain`, `Node.drainTick`, `Node.handleDrainHandoff`: Draining.
* `Node.finishCall`, `Node.rpcTick`, `Node.failCallsTo`: Finishing calls.
* `Node.onPeerDead`, `Node.onPeerAlive`: Membership verdicts.
* `Node.restart`: A new incarnation on the same log.
-/

namespace Tautq

open Status

/-- Merge precedence of a state reported with a grant. -/
def JobState.rank : JobState → Nat
  | .done => 3
  | .deadLetter => 2
  | .leased => 1
  | .ready => 0

namespace ClaimState

/-- Merge what a grant reported: the larger sequence number, the higher
    ranked state. An unknown state byte ranks lowest. -/
def merge (st : ClaimState) (info : Option (Option JobState × Nat)) : ClaimState :=
  match info with
  | none => st
  | some (rstate, rseq) =>
    { st with
      bestSeq := if st.bestSeq < rseq then rseq else st.bestSeq
      bestState := match rstate with
        | none => st.bestState
        | some s => if st.bestState.rank < s.rank then s else st.bestState }

/-- Count a grant once per slot; a member outside the pinned set has no slot
    and is always counted. -/
def count (st : ClaimState) (bit : Nat) : ClaimState :=
  if bit = 0 ∨ st.ackedMask &&& bit = 0 then
    { st with ackedMask := st.ackedMask ||| bit, acks := st.acks + 1 }
  else st

end ClaimState

/-- The bit of the last slot a member sits in, or none. -/
def ReplicaSet.bitOf (r : ReplicaSet) (e : Endpoint) : Nat :=
  r.slots.foldl (fun bit s => if s.2 = e then 2 ^ s.1 else bit) 0

namespace Node

/-- The record a finalised takeover commits, if any: the merged terminal
    state, or the lease it inherits. -/
def inherits (id : JobId) (st : ClaimState) (j : Job) : Option Record :=
  if st.bestState = .done ∧ j.state ≠ .done then some (.done id j.epoch st.bestSeq)
  else if st.bestState = .deadLetter ∧ j.state ≠ .done ∧ j.state ≠ .deadLetter then
    some (.deadLetter id j.epoch)
  else if (st.bestState = .leased ∨ j.leaseSeq < st.bestSeq) ∧
      (j.state ≠ .leased ∨ j.leaseSeq < st.bestSeq) then
    some (.lease id j.epoch (if j.leaseSeq < st.bestSeq then st.bestSeq else j.leaseSeq) 0)
  else none

/-- Whether a finalised takeover arms a fresh visibility window for an
    inherited lease. -/
def rearms (st : ClaimState) (j : Job) : Bool :=
  !(st.bestState = .done && j.state ≠ .done) &&
    !(st.bestState = .deadLetter && j.state ≠ .done && j.state ≠ .deadLetter) &&
    (st.bestState = .leased || j.leaseSeq < st.bestSeq)

/-- Queue or arm the copy as it stands after the merge, and mark every
    replica unconfirmed. -/
def activate (n : Node) (id : JobId) : Node :=
  match n.find id with
  | none => n
  | some j =>
    let n :=
      if j.state = .ready then { n with ready := n.ready ++ [id] }
      else if j.state = .leased ∧ id ∉ n.leaseDeadline then
        { n with leaseDeadline := n.leaseDeadline.insert id (n.now + j.visibilityMs) }
      else n
    ({ n with repair := n.repair.insert id 0 } : Node).emit (.finalized j)

/-- Commit the merged knowledge. The result of the append is not looked at. -/
def inherit (n : Node) (id : JobId) (st : ClaimState) (j : Job) : Node :=
  let n := match inherits id st j with
    | none => n
    | some r => (n.commit r).1
  if rearms st j then
    { n with leaseDeadline := n.leaseDeadline.insert id (n.now + j.visibilityMs) }
  else n

/-- A claim has its majority: close it and take the job over, unless the copy
    names another owner by now. -/
def finalizeTakeover (n : Node) (id : JobId) : Node :=
  match n.claims.lookup id with
  | none => n
  | some st =>
    let n := { n with claims := n.claims.erase id }
    match n.find id with
    | none => n
    | some j => if j.owner ≠ n.self then n else (n.inherit id st j).activate id

/-- A grant: count and merge it, and finalise with a majority. -/
def onClaimGrant (n : Node) (id : JobId) (dst : Endpoint) (st : ClaimState) (body : Reply) : Node :=
  let bit := match n.find id with
    | none => 0
    | some j => j.replicas.bitOf dst
  let st := (st.count bit).merge body.asClaimInfo
  let n := { n with claims := n.claims.insert id st }
  if st.needed ≤ st.acks then n.finalizeTakeover id else n

/-- A claim reply, for whatever claim of the job stands now. -/
def onClaimReply (n : Node) (id : JobId) (dst : Endpoint) (code : Status) (body : Reply) : Node :=
  match n.claims.lookup id with
  | none => n
  | some st =>
    if code = kCreated then n.onClaimGrant id dst st body
    else if code = kStaleEpoch then
      ({ n with claims := n.claims.erase id } : Node).resyncJob id
    else if code = kUnknownJob then
      match n.find id with
      | none => n
      | some j =>
        ((j.peers n.self).filter (fun s => s.2 = dst)).foldl
          (fun n s => n.sendReplicate id s.1) n
    else n

/-- Ask one member to grant the standing claim. -/
def claimSend (n : Node) (id : JobId) (dst : Endpoint) : Node :=
  match n.claims.lookup id with
  | none => n
  | some st =>
    n.call dst (.claim id st.proposed n.self) (.claim id dst)
      (fun n => n.onClaimReply id dst kBusy .empty)

/-- The claim a takeover of this copy starts with. -/
def newClaim (n : Node) (j : Job) (proposed : Nat) : ClaimState where
  proposed := proposed
  acks := 0
  needed := ((j.replicas.pinned.length / 2 + 1 : Nat) : Int) - 1
  bestState := j.state
  bestSeq := j.leaseSeq
  ackedMask := 0
  nextRetry := n.now + 1000

/-- Open a claim and ask the alive members, or finalise at once where no
    other grant is needed. -/
def openClaim (n : Node) (id : JobId) (j : Job) (proposed : Nat) : Node :=
  let st := n.newClaim j proposed
  let n := { n with claims := n.claims.insert id st }
  if st.needed ≤ 0 then n.finalizeTakeover id
  else
    ((j.peers n.self).filter (fun s => n.isAlive s.2)).foldl (fun n s => n.claimSend id s.2) n

/-- Take a job over: commit the takeover locally, then claim. A draining node
    never does. -/
def startTakeover (n : Node) (id : JobId) : Node :=
  if n.draining ∨ id ∈ n.claims then n
  else
    match n.find id with
    | none => n
    | some j =>
      if j.owner = n.self ∨ j.terminal then n
      else
        let proposed := (j.epoch + 1) % 2 ^ 32
        let c := n.commit (.takeover id proposed n.self)
        if c.2 then c.1.openClaim id j proposed else c.1

/-- Grant a claim of a higher epoch: log it, stand down if we owned the job,
    answer with what we knew before. -/
def grantClaim (n : Node) (ctx : ReqCtx) (id : JobId) (j : Job) (proposed : Nat)
    (newOwner : Endpoint) : Node :=
  let c := n.commit (.takeover id proposed newOwner)
  if c.2 then
    (c.1.afterOwnershipChange id).respond ctx kCreated (.claimInfo j.state j.leaseSeq)
  else c.1.respond ctx kNoQuorum .empty

/-- A claim arrives. Claims are first-person and only for pinned members; the
    epoch we are already at is granted again to the owner it belongs to. -/
def handleClaim (n : Node) (ctx : ReqCtx) (id : JobId) (proposed : Nat) (newOwner : Endpoint) :
    Node :=
  if ctx.src ≠ newOwner then n.respond ctx kInvalid .empty
  else
    match n.find id with
    | none => n.respond ctx kUnknownJob .empty
    | some j =>
      if newOwner ∉ j.replicas.toList then n.respond ctx kNotOwner .empty
      else if proposed < j.epoch ∨ (proposed = j.epoch ∧ j.owner ≠ newOwner) then
        n.respond ctx kStaleEpoch .empty
      else if proposed = j.epoch then
        n.respond ctx kCreated (.claimInfo j.state j.leaseSeq)
      else n.grantClaim ctx id j proposed newOwner

/-- Retry one claim at the alive slots that have not granted it. -/
def retryClaim (n : Node) (id : JobId) : Node :=
  match n.claims.lookup id with
  | none => n
  | some st =>
    let n := { n with claims := n.claims.insert id { st with nextRetry := n.now + 1000 } }
    match n.find id with
    | none => n
    | some j =>
      ((j.peers n.self).filter
          (fun s => decide (st.ackedMask &&& 2 ^ s.1 = 0) && n.isAlive s.2)).foldl
        (fun n s => n.claimSend id s.2) n

/-- The claims whose retry time has come. -/
def dueClaims (n : Node) (ids : List JobId) : List JobId :=
  ids.filter (fun id => match n.claims.lookup id with
    | none => false
    | some st => st.nextRetry ≤ n.now)

/-- Retry the due claims. -/
def claimTick (n : Node) : Node :=
  if n.now < n.nextClaimTick then n
  else
    let w := ({ n with nextClaimTick := n.now + 500 } : Node).walkJobs n.claims.keys
    (n.dueClaims w.1).foldl retryClaim w.2

/-- Start draining; the next tick acts on it. -/
def drain (n : Node) : Node :=
  { n with draining := true, drainCb := true, nextDrainTick := 0 }

/-- Whether the stored copy is an active job of ours. -/
def holdsActive (n : Node) (id : JobId) : Bool :=
  match n.find id with
  | none => false
  | some j => j.owner = n.self && !j.terminal

/-- Invite the first alive fellow member to claim the job. -/
def handoff (n : Node) (id : JobId) : Node :=
  match n.find id with
  | none => n
  | some j =>
    match (j.peers n.self).find? (fun s => n.isAlive s.2) with
    | none => n
    | some s => n.call s.2 (.drainHandoff id) .drainHandoff (fun n => n)

/-- Hand off every active job of ours; report once there is none. -/
def drainTick (n : Node) : Node :=
  if n.draining = false ∨ n.now < n.nextDrainTick then n
  else
    let w := ({ n with nextDrainTick := n.now + 500 } : Node).walkJobs n.store.table.jobs.keys
    let held := w.1.filter n.holdsActive
    let m := held.foldl handoff w.2
    if held = [] ∧ m.drainCb then ({ m with drainCb := false } : Node).emit .drained else m

/-- An invitation to claim arrives; only the owner's counts. -/
def handleDrainHandoff (n : Node) (ctx : ReqCtx) (id : JobId) : Node :=
  match n.find id with
  | none => n.respond ctx kUnknownJob .empty
  | some j =>
    (if ctx.src = j.owner ∧ j.owner ≠ n.self then n.startTakeover id else n).respond ctx
      kCreated .empty

/-- Run a captured callback with a status and a body. -/
def runCont (n : Node) (k : Cont) (st : Status) (body : Reply) : Node :=
  match k with
  | .fwdSubmit key => n.onFwdSubmitReply key st body
  | .replicate id slot => n.onReplicateReply id slot st
  | .apply id slot member rec q => n.onApplyReply id slot member rec q st
  | .fwdAck => n.emit (.ackRelayed st)
  | .claim id dst => n.onClaimReply id dst st body
  | .resync id => n.onResyncReply id st body
  | .drainHandoff => n
  | .fwdStatus id rest best => n.onStatusReply id rest best st body

/-- Finish a call by its request id alone; an unknown id is a late reply. -/
def finishCall (n : Node) (st : Status) (body : Reply) (reqId : Nat) : Node :=
  match n.calls.lookup reqId with
  | none => n
  | some c => ({ n with calls := n.calls.erase reqId } : Node).runCont c.cont st body

/-- The calls to one peer. -/
def callsTo (n : Node) (p : Endpoint) (ids : List Nat) : List Nat :=
  ids.filter (fun r => match n.calls.lookup r with
    | none => false
    | some c => c.peer = p)

/-- Fail every call to a peer. -/
def failCallsTo (n : Node) (p : Endpoint) : Node :=
  let w := n.walkCalls n.calls.keys
  (n.callsTo p w.1).foldl (finishCall · kPeerDown .empty) w.2

/-- The calls whose deadline has passed. -/
def overdue (n : Node) (ids : List Nat) : List Nat :=
  ids.filter (fun r => match n.calls.lookup r with
    | none => false
    | some c => c.deadline ≤ n.now)

/-- Time out every overdue call. -/
def rpcTick (n : Node) : Node :=
  let w := n.walkCalls n.calls.keys
  (n.overdue w.1).foldl (finishCall · kTimeout .empty) w.2

/-- The first alive member of the pinned set, in order. -/
def successor (n : Node) (j : Job) : Endpoint :=
  (j.replicas.toList.find? (fun r => decide (r ≠ {}) && n.isAlive r)).getD {}

/-- Whether this node is to claim the job: its owner is dead, it is active,
    and we come first. -/
def shouldClaim (n : Node) (id : JobId) : Bool :=
  match n.find id with
  | none => false
  | some j => j.owner ≠ n.self && !n.isAlive j.owner && !j.terminal && n.successor j = n.self

/-- A peer was declared dead: fail its calls, then claim every dead-owned job
    we succeed to. -/
def onPeerDead (n : Node) (p : Endpoint) : Node :=
  let n := n.failCallsTo p
  let w := n.walkJobs n.store.table.jobs.keys
  (w.1.filter n.shouldClaim).foldl startTakeover w.2

/-- Whether we own the job and the peer is in one of its slots. -/
def shouldRepair (n : Node) (p : Endpoint) (id : JobId) : Bool :=
  match n.find id with
  | none => false
  | some j => j.owner = n.self && j.replicas.toList.contains p

/-- A peer came back: resend it everything we own that is pinned to it. -/
def onPeerAlive (n : Node) (p : Endpoint) : Node :=
  let w := n.walkJobs n.store.table.jobs.keys
  (w.1.filter (n.shouldRepair p)).foldl
    (fun n id => { n with repair := n.repair.insert id 0 }) w.2

/-- The timers, in the program's order. -/
def tick (n : Node) : Node :=
  n.rpcTick.expiryTick.repairTick.claimTick.drainTick

/-- Set up one replayed job: unconfirmed on every replica, queued or armed,
    and reconciled while it is active. -/
def openJob (n : Node) (id : JobId) : Node :=
  match n.find id with
  | none => n
  | some j =>
    if j.owner ≠ n.self then n
    else
      let n := { n with repair := n.repair.insert id 0 }
      match j.state with
      | .ready => ({ n with ready := n.ready ++ [id] } : Node).resyncJob id
      | .leased =>
        ({ n with
            leaseDeadline := n.leaseDeadline.insert id (n.now + j.visibilityMs) } : Node).resyncJob
          id
      | _ => n

/-- A process that has just started on an existing log; the history goes on. -/
def reboot (n : Node) (boot : Nat) : Node where
  self := n.self
  cfg := n.cfg
  boot := boot
  store := n.store.reopen
  now := n.now
  peers := n.peers
  sched := n.sched
  boots := n.boot :: n.boots
  outbox := n.outbox
  events := n.events

/-- Crash and start again: replay the log and set up every owned job. -/
def restart (n : Node) (boot : Nat) : Node :=
  let w := (n.reboot boot).walkJobs (n.reboot boot).store.table.jobs.keys
  w.1.foldl openJob w.2

end Node

end Tautq
