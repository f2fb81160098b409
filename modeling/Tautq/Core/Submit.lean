import Tautq.Core.Resync
import Tautq.Core.Ring

/-!
# The Submit Path

A submit is routed to the key's configured owner, which mints the job, logs
it, and answers once one replica has stored a copy. A gateway forwards and
relays the owner's answer; a transport failure is ambiguous and is answered
as a refusal, never by minting elsewhere.

`repair` holds, for each owned job, the slots confirmed since its last
transition, as a bit mask. A confirmation is any positive reply for the slot,
whichever request it answers; when every peer slot is confirmed the entry is
dropped.

The status query walks the embedded origin first and then the alive members,
keeping the most advanced copy.

## Main definitions

* `Node.markReplicaOk`: Confirm one slot.
* `Node.onReplicateReply`, `Node.sendReplicate`, `Node.startReplication`: The
  replication of a job and the submit waiting on it.
* `Node.mintJob`, `Node.ownerSubmit`: The owner's side.
* `Node.submit`: The client-facing entry.
* `Node.handleFwdSubmit`, `Node.handleReplicate`: The receiving sides.
* `Node.status`: The status query.
-/

namespace Tautq

open Status

namespace SubmitParams

/-- Whether every field fits its length limit; what the decoder of a forwarded
    submit checks. -/
def fits (p : SubmitParams) : Bool :=
  p.idemKey.length ≤ kMaxIdemKey && p.url.length ≤ kMaxUrl && p.body.length ≤ kMaxJobBody

/-- Whether a client's submit is admitted: within the limits, and with a key
    and a destination. -/
def admitted (p : SubmitParams) : Bool :=
  p.idemKey ≠ [] && p.url ≠ [] && p.fits

end SubmitParams

namespace Node

/-- The mask of all peer slots of the stored copy. -/
def wantedMask (n : Node) (id : JobId) : Nat :=
  match n.find id with
  | none => 0
  | some j => (j.peers n.self).foldl (fun w s => w ||| 2 ^ s.1) 0

/-- A slot's copy is confirmed; drop the entry when all of them are. -/
def markReplicaOk (n : Node) (id : JobId) (slot : Nat) : Node :=
  match n.repair.lookup id with
  | none => n
  | some mask =>
    let mask := mask ||| 2 ^ slot
    if mask &&& n.wantedMask id = n.wantedMask id then
      { n with repair := n.repair.erase id }
    else
      { n with repair := n.repair.insert id mask }

/-- Answer a pending submit, once. -/
def submitResult (n : Node) (id : JobId) (st : Status) : Node :=
  match n.pendingSubmits.lookup id with
  | none => n
  | some ps => ({ n with pendingSubmits := n.pendingSubmits.erase id } : Node).submitCb ps.cb st id

/-- Count a replicate reply against the submit waiting on it. -/
def countReplicate (n : Node) (id : JobId) (ok : Bool) (ps : PendingSubmit) : Node :=
  let ps := { ps with
    outstanding := ps.outstanding - 1
    needed := if ok then ps.needed - 1 else ps.needed }
  let n := { n with pendingSubmits := n.pendingSubmits.insert id ps }
  if ps.needed ≤ 0 then n.submitResult id kCreated
  else if ps.outstanding = 0 then n.submitResult id kNoQuorum
  else n

/-- A replicate reply. The pending submit is looked up first; neither the
    confirmation nor the resync touches it. -/
def onReplicateReply (n : Node) (id : JobId) (slot : Nat) (st : Status) : Node :=
  let ok : Bool := st = kCreated ∨ st = kDuplicate
  let pending := n.pendingSubmits.lookup id
  let n :=
    if ok then n.markReplicaOk id slot
    else if st = kStaleEpoch then n.resyncJob id
    else n
  match pending with
  | none => n
  | some ps => n.countReplicate id ok ps

/-- Send the stored copy to one slot. -/
def sendReplicate (n : Node) (id : JobId) (slot : Nat) : Node :=
  match n.find id with
  | none => n
  | some j =>
    n.call (j.replicas.slot slot) (.replicate j) (.replicate id slot)
      (fun n => n.onReplicateReply id slot kBusy)

/-- The bookkeeping of a freshly minted job: no slot confirmed, and one replica
    still needed for the submit where there is a peer. -/
def trackSubmit (n : Node) (id : JobId) (peers : List (Nat × Endpoint)) (cb : SubmitCb) : Node :=
  let n := { n with
    repair := n.repair.insert id 0
    pendingSubmits := n.pendingSubmits.insert id
      { cb, needed := if peers = [] then 0 else 1, outstanding := peers.length } }
  if peers = [] then n.submitResult id kCreated else n

/-- Replicate a freshly minted job to its peers. -/
def startReplication (n : Node) (id : JobId) (cb : SubmitCb) : Node :=
  match n.find id with
  | none => n
  | some j =>
    (j.peers n.self).foldl (fun n s => n.sendReplicate id s.1)
      (n.trackSubmit id (j.peers n.self) cb)

/-- The replica set a new job is pinned to: the live ring's, or this node and
    the first two other live nodes when the live ring starts elsewhere. -/
def pinReplicas (n : Node) (key : Bytes) : ReplicaSet :=
  let set := Ring.replicaSet key n.alive
  if set.first ≠ n.self then
    let others := n.alive.filter (· ≠ n.self)
    { first := n.self, second := others.getD 0 {}, third := others.getD 1 {} }
  else set

/-- The job an owner mints for a submit. -/
def mintJob (n : Node) (p : SubmitParams) : Job where
  id := { origin := ekey n.self
          nonce := (n.boot % 2 ^ 32) <<< 32 ||| n.nextJobSeq % 2 ^ 32 }
  idemKey := p.idemKey
  url := p.url
  body := p.body
  visibilityMs := if p.visibilityMs ≠ 0 then p.visibilityMs else n.cfg.defaultVisibilityMs
  maxAttempts := if p.maxAttempts ≠ 0 then p.maxAttempts else n.cfg.defaultMaxAttempts
  replicas := n.pinReplicas p.idemKey
  state := .ready
  owner := n.self
  epoch := 1
  leaseSeq := 0
  attempts := 0

/-- The owner's side of a submit: a known key is a duplicate, a draining node
    admits nothing new, otherwise mint, log and replicate. -/
def ownerSubmit (n : Node) (p : SubmitParams) (cb : SubmitCb) : Node :=
  match n.store.table.findByIdem p.idemKey with
  | some existing => n.submitCb cb kDuplicate existing.id
  | none =>
    if n.draining then n.submitCb cb kNoQuorum {}
    else
      let j := n.mintJob p
      let c := ({ n with nextJobSeq := n.nextJobSeq + 1 } : Node).commit (.submit j)
      if c.2 then
        ({ c.1 with ready := c.1.ready ++ [j.id] } : Node).startReplication j.id cb
      else c.1.submitCb cb kNoQuorum {}

/-- The answer to a forwarded submit reaches the client. -/
def onFwdSubmitReply (n : Node) (key : Bytes) (st : Status) (body : Reply) : Node :=
  if st < kTransport then n.emit (.submitAnswered key st body.asJobId)
  else n.emit (.submitAnswered key kNoQuorum {})

/-- A client's submit, at whichever node it hit. -/
def submit (n : Node) (p : SubmitParams) : Node :=
  if p.admitted = false then n.emit (.submitAnswered p.idemKey kInvalid {})
  else
    let owner := Ring.ownerFor p.idemKey n.members
    if owner = n.self then n.ownerSubmit p (.client p.idemKey)
    else if owner = {} ∨ n.isAlive owner = false then
      n.emit (.submitAnswered p.idemKey kNoQuorum {})
    else
      n.call owner (.fwdSubmit p) (.fwdSubmit p.idemKey)
        (fun n => n.onFwdSubmitReply p.idemKey kBusy .empty)

/-- A forwarded submit arrives at the owner. -/
def handleFwdSubmit (n : Node) (ctx : ReqCtx) (p : SubmitParams) : Node :=
  if p.fits = false then n.respond ctx kInvalid .empty
  else n.ownerSubmit p (.reply ctx)

/-- Store a full copy, unless it is from an older epoch than ours. -/
def storeCopy (n : Node) (ctx : ReqCtx) (j : Job) : Node :=
  let c := n.commit (.replicate j)
  if c.2 then c.1.respond ctx kCreated .empty else c.1.respond ctx kNoQuorum .empty

/-- A full copy arrives. -/
def handleReplicate (n : Node) (ctx : ReqCtx) (j : Job) : Node :=
  match n.find j.id with
  | none => n.storeCopy ctx j
  | some known =>
    if j.epoch < known.epoch then n.respond ctx kStaleEpoch .empty
    else n.storeCopy ctx j

/-- The more advanced of the best copy so far and another one. -/
def better (best : Option Job) (other : Job) : Option Job :=
  match best with
  | none => some other
  | some b => if jobAdvances b other then some other else some b

/-- Ask the remaining targets in turn, then answer with the best copy. -/
def queryStatusTarget (id : JobId) : List Endpoint → Option Job → Node → Node
  | [], best, n => n.emit (.statusAnswered id (if best.isSome then kCreated else kUnknownJob) best)
  | target :: rest, best, n =>
    if target = n.self then
      queryStatusTarget id rest (match n.find id with
        | none => best
        | some j => better best j) n
    else
      n.call target (.fwdStatus id) (.fwdStatus id rest best)
        (fun n => queryStatusTarget id rest best n)

/-- A status reply: keep the copy if it is of this job and ahead. -/
def onStatusReply (n : Node) (id : JobId) (rest : List Endpoint) (best : Option Job)
    (code : Status) (body : Reply) : Node :=
  let best :=
    match body.asJob with
    | none => best
    | some remote => if code = kCreated ∧ remote.id = id then better best remote else best
  queryStatusTarget id rest best n

/-- A client's status query: the embedded origin first, then the alive
    members. -/
def status (n : Node) (id : JobId) : Node :=
  let origin : Endpoint :=
    { addr := UInt32.ofNat (id.origin >>> 16), port := UInt16.ofNat id.origin }
  let targets := n.alive.foldl (fun out e => if e ∈ out then out else out ++ [e]) [origin]
  queryStatusTarget id targets none n

/-- Answer a status query with the stored copy. -/
def handleFwdStatus (n : Node) (ctx : ReqCtx) (id : JobId) : Node :=
  match n.find id with
  | none => n.respond ctx kUnknownJob .empty
  | some j => n.respond ctx kCreated (.job j)

end Node

end Tautq
