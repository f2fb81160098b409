import Tautq.Core.Submit

/-!
# Leases, Acks and Expiry

A lease, a completion, an expiry and a parking are each one record, committed
locally first and then applied at the replicas; one replica's acknowledgement
decides the commit. The callback of a lease hands out the grant, built from
the stored copy at that time.

`quorumCommit` keeps the counters of each commit in `qstates`. A refused send
runs the reply path at once, inside the loop that issues the requests.

## Main definitions

* `Node.leaseDone`, `Node.fireDone`, `Node.settle`: Deciding a commit.
* `Node.onApplyReply`, `Node.quorumCommit`: The owner's side of a transition.
* `Node.handleApply`: The replica's side, with the epoch fence.
* `Node.scanReady`, `Node.lease`: Granting a job.
* `Node.ownerAck`, `Node.ack`, `Node.handleFwdAck`: Completions and nacks.
* `Node.expiryTick`, `Node.repairTick`: The timers.
-/

namespace Tautq

open Status

/-- The epoch a transition record is fenced by; full copies are not
    transition records. -/
def Record.fence : Record → Option Nat
  | .submit _ => none
  | .replicate _ => none
  | .lease _ epoch _ _ => some epoch
  | .done _ epoch _ => some epoch
  | .expire _ epoch _ => some epoch
  | .deadLetter _ epoch => some epoch
  | .takeover _ newEpoch _ => some newEpoch

/-- Whether a record is a takeover. -/
def Record.isTakeover : Record → Bool
  | .takeover _ _ _ => true
  | _ => false

namespace Node

/-- The delay before a nacked job is leased again. -/
def nackBackoff (attempt : Nat) : Time :=
  let shift := if attempt > 6 then 6 else if attempt > 0 then attempt - 1 else 0
  min (1000 <<< shift) 60000

/-- Queue a job, not to be leased before the given time. -/
def requeueReady (n : Node) (id : JobId) (notBefore : Time) : Node :=
  { n with ready := n.ready ++ [id], notBefore := n.notBefore.insert id notBefore }

/-- Whether some peer is alive, or there is none to reach. -/
def replicasReachable (n : Node) (j : Job) : Bool :=
  (j.peers n.self).any (fun s => n.isAlive s.2) || (j.peers n.self).isEmpty

/-- The grant built from a stored copy. -/
def grantOf (id : JobId) (j : Job) : LeaseGrant where
  id := id
  url := j.url
  body := j.body
  idemKey := j.idemKey
  epoch := j.epoch
  leaseSeq := j.leaseSeq
  visibilityMs := j.visibilityMs
  attempt := j.attempts

/-- A lease commit is decided: hand out the grant, or expire the lease right
    back with the fence values the copy has now. -/
def leaseDone (n : Node) (id : JobId) (epoch leaseSeq worker : Nat) (ok : Bool) : Node :=
  match n.find id with
  | none => n.emit (.leaseRefused kUnknownJob)
  | some j =>
    if ok then
      ({ n with leaseDeadline := n.leaseDeadline.insert id (n.now + j.visibilityMs) } : Node).emit
        (.granted (.lease id epoch leaseSeq worker) (grantOf id j) n.now)
    else
      ((n.commit (.expire id j.epoch j.leaseSeq)).1.requeueReady id
        (n.now + nackBackoff j.attempts)).emit (.leaseRefused kNoQuorum)

/-- Run the callback of a decided commit. -/
def fireDone (n : Node) (d : DoneCb) (ok : Bool) : Node :=
  match d with
  | .ignore => n
  | .lease id epoch leaseSeq worker => n.leaseDone id epoch leaseSeq worker ok
  | .ack id cb => n.ackCb cb id true (if ok then kCreated else kNoQuorum)

/-- Keep the counters of a commit and decide it, once: as soon as enough
    replicas confirmed it, or when no reply is outstanding. -/
def settle (n : Node) (q : Nat) (s : QState) : Node :=
  if s.fired then { n with qstates := n.qstates.set q s }
  else if s.needed ≤ 0 then
    ({ n with qstates := n.qstates.set q { s with fired := true } } : Node).fireDone s.done true
  else if s.outstanding = 0 then
    ({ n with qstates := n.qstates.set q { s with fired := true } } : Node).fireDone s.done false
  else { n with qstates := n.qstates.set q s }

/-- An apply reply: a confirmation counts, a stale epoch means our authority
    is gone. The counters are shared by the callbacks of one commit and outlive
    them. -/
def onApplyReply (n : Node) (id : JobId) (slot : Nat) (member : Endpoint) (rec : Record) (q : Nat)
    (code : Status) : Node :=
  match n.qstates[q]? with
  | none => n
  | some s =>
    if code = kCreated then
      ((n.emit (.applyAcked member rec)).markReplicaOk id slot).settle q
        { s with outstanding := s.outstanding - 1, needed := s.needed - 1 }
    else if code = kStaleEpoch then
      (n.resyncJob id).settle q { s with outstanding := s.outstanding - 1 }
    else n.settle q { s with outstanding := s.outstanding - 1 }

/-- The bookkeeping of a freshly committed transition: unconfirmed on every
    replica, and decided at once where there is none. -/
def trackQuorum (n : Node) (id : JobId) (done : DoneCb) (peers : List (Nat × Endpoint)) : Node :=
  let n := { n with repair := n.repair.insert id 0 }
  if peers = [] then n.fireDone done true
  else
    { n with qstates := n.qstates ++
        [{ done, needed := 1, outstanding := peers.length, fired := false }] }

/-- Commit a transition locally, then ask every peer to apply it. -/
def quorumCommit (n : Node) (id : JobId) (rec : Record) (done : DoneCb) : Node :=
  let c := n.commit rec
  if c.2 = false then c.1.fireDone done false
  else
    match c.1.find id with
    | none => c.1
    | some j =>
      (j.peers n.self).foldl (fun m s =>
          m.call s.2 (.apply rec) (.apply id s.1 s.2 rec n.qstates.length)
            (fun m => m.onApplyReply id s.1 s.2 rec n.qstates.length kBusy))
        (c.1.trackQuorum id done (j.peers n.self))

/-- Commit a record on behalf of the owner and answer. -/
def applyRecord (n : Node) (ctx : ReqCtx) (rec : Record) : Node :=
  let c := n.commit rec
  if c.2 then c.1.respond ctx kCreated .empty else c.1.respond ctx kNoQuorum .empty

/-- A transition record arrives. The epoch fence comes first, then the owner
    check; a takeover record passes the latter. -/
def handleApply (n : Node) (ctx : ReqCtx) (rec : Record) : Node :=
  match rec.fence with
  | none => n.respond ctx kInvalid .empty
  | some epoch =>
    match n.find rec.jobId with
    | none => n.respond ctx kUnknownJob .empty
    | some j =>
      if epoch < j.epoch then n.respond ctx kStaleEpoch .empty
      else if ctx.src ≠ j.owner ∧ rec.isTakeover = false then
        n.respond ctx kNotOwner .empty
      else n.applyRecord ctx rec

/-- Scan the queue once, at most `k` entries: drop stale ones, send the ones
    backing off to the end, stop at the first leasable job. -/
def scanReady (n : Node) : Nat → List JobId → Option Job × List JobId
  | 0, queue => (none, queue)
  | _ + 1, [] => (none, [])
  | k + 1, id :: queue =>
    match n.find id with
    | none => scanReady n k queue
    | some j =>
      if j.state ≠ .ready ∨ j.owner ≠ n.self then scanReady n k queue
      else
        match n.notBefore.lookup id with
        | none => (some j, queue)
        | some t => if n.now < t then scanReady n k (queue ++ [id]) else (some j, queue)

/-- Lease the picked job: stall if no replica is reachable, park it if its
    attempts are used up, otherwise commit the lease. -/
def leaseJob (n : Node) (j : Job) (worker : Nat) : Node :=
  if n.replicasReachable j = false then
    ({ n with ready := j.id :: n.ready } : Node).emit (.leaseRefused kNoQuorum)
  else
    let newSeq := (j.leaseSeq + 1) % 2 ^ 32
    if j.maxAttempts < newSeq then
      (n.quorumCommit j.id (.deadLetter j.id j.epoch) .ignore).emit (.leaseRefused kNoJob)
    else
      ({ n with notBefore := n.notBefore.erase j.id } : Node).quorumCommit j.id
        (.lease j.id j.epoch newSeq worker) (.lease j.id j.epoch newSeq worker)

/-- Grant one owned ready job to a worker. -/
def lease (n : Node) (worker : Nat) : Node :=
  if n.draining then n.emit (.leaseRefused kNoJob)
  else
    let scan := n.scanReady n.ready.length n.ready
    let n := { n with ready := scan.2 }
    match scan.1 with
    | none => n.emit (.leaseRefused kNoJob)
    | some j => n.leaseJob j worker

/-- A visibility deadline has passed: park the job or return it to the
    queue. -/
def expireJob (n : Node) (id : JobId) : Node :=
  let n := { n with leaseDeadline := n.leaseDeadline.erase id }
  match n.find id with
  | none => n
  | some j =>
    if j.state ≠ .leased ∨ j.owner ≠ n.self then n
    else if j.maxAttempts ≤ j.leaseSeq then n.quorumCommit id (.deadLetter id j.epoch) .ignore
    else
      ((n.emit (.expired id j.leaseSeq n.now)).quorumCommit id
        (.expire id j.epoch j.leaseSeq) .ignore).requeueReady id n.now

/-- The leases whose deadline has passed. -/
def due (n : Node) (ids : List JobId) : List JobId :=
  ids.filter (fun id => match n.leaseDeadline.lookup id with
    | none => false
    | some t => t ≤ n.now)

/-- Expire every due lease. -/
def expiryTick (n : Node) : Node :=
  let w := n.walkJobs n.leaseDeadline.keys
  (n.due w.1).foldl expireJob w.2

/-- Whether the presented token is the current lease of the copy: the lease
    sequence number, under this epoch or an older one. -/
def currentLease (j : Job) (epoch leaseSeq : Nat) : Bool :=
  j.state = .leased && epoch ≤ j.epoch && j.leaseSeq = leaseSeq

/-- Whether a late completion is taken although the lease is over: nobody
    leased the job again. -/
def amnesty (j : Job) (epoch leaseSeq : Nat) : Bool :=
  j.state = .ready && (epoch < j.epoch || (epoch = j.epoch && leaseSeq ≤ j.leaseSeq))

/-- Whether a completion is taken for a parked job. -/
def lateAfterPark (j : Job) (epoch : Nat) : Bool :=
  j.state = .deadLetter && epoch ≤ j.epoch

/-- A delivery failure under the current lease: back to the queue with a
    delay. -/
def nackJob (n : Node) (id : JobId) (j : Job) (epoch leaseSeq : Nat) (cb : AckCb) : Node :=
  let n := ({ n with leaseDeadline := n.leaseDeadline.erase id } : Node).emit
    (.nacked id epoch leaseSeq n.now)
  ((n.quorumCommit id (.expire id j.epoch j.leaseSeq) .ignore).requeueReady id
    (n.now + nackBackoff j.attempts)).ackCb cb id false kCreated

/-- Start a completion. -/
def completeJob (n : Node) (id : JobId) (j : Job) (epoch leaseSeq : Nat) (cb : AckCb) : Node :=
  ({ n with leaseDeadline := n.leaseDeadline.erase id
            notBefore := n.notBefore.erase id } : Node).emit (.doneStarted id epoch leaseSeq)
    |>.quorumCommit id (.done id j.epoch j.leaseSeq) (.ack id cb)

/-- The owner's side of an ack. A done job answers from the absence of its
    repair entry. -/
def ownerAck (n : Node) (id : JobId) (epoch leaseSeq : Nat) (success : Bool) (cb : AckCb) : Node :=
  match n.find id with
  | none => n.ackCb cb id success kUnknownJob
  | some j =>
    if j.state = .done then
      n.ackCb cb id success (if id ∈ n.repair then kNoQuorum else kCreated)
    else if success = false then
      if currentLease j epoch leaseSeq = false then n.ackCb cb id success kNotLeased
      else n.nackJob id j epoch leaseSeq cb
    else if currentLease j epoch leaseSeq || amnesty j epoch leaseSeq || lateAfterPark j epoch then
      n.completeJob id j epoch leaseSeq cb
    else n.ackCb cb id success kNotLeased

/-- A worker's ack, at whichever node it hit. -/
def ack (n : Node) (id : JobId) (epoch leaseSeq : Nat) (success : Bool) : Node :=
  match n.find id with
  | none => n.emit (.ackRelayed kUnknownJob)
  | some j =>
    if j.owner = n.self then n.ownerAck id epoch leaseSeq success .client
    else
      n.call j.owner (.fwdAck id epoch leaseSeq success) .fwdAck
        (fun n => n.emit (.ackRelayed kBusy))

/-- A forwarded ack arrives. -/
def handleFwdAck (n : Node) (ctx : ReqCtx) (id : JobId) (epoch leaseSeq : Nat) (success : Bool) :
    Node :=
  match n.find id with
  | none => n.respond ctx kUnknownJob .empty
  | some j =>
    if j.owner ≠ n.self then n.respond ctx kNotOwner .empty
    else n.ownerAck id epoch leaseSeq success (.reply ctx)

/-- Send the copy to the alive slots not confirmed in the job's mask. -/
def repairJob (n : Node) (id : JobId) : Node :=
  match n.repair.lookup id with
  | none => n
  | some mask =>
    match n.find id with
    | none => n
    | some j =>
      if j.owner ≠ n.self then n
      else
        ((j.peers n.self).filter (fun s => !mask.testBit s.1 && n.isAlive s.2)).foldl
          (fun n s => n.sendReplicate id s.1) n

/-- Resend the copies not confirmed yet. -/
def repairTick (n : Node) : Node :=
  if n.now < n.nextRepair then n
  else
    let w := ({ n with nextRepair := n.now + n.cfg.repairInterval } : Node).walkJobs n.repair.keys
    w.1.foldl repairJob w.2

end Node

end Tautq
