import Tautq.Core.Node

/-!
# Resync

Reconciling one job against its replica set. A resync asks every alive fellow
member for its copy and adopts the ones that strictly advance the local copy.
It is triggered by a stale-epoch answer anywhere, by a lost claim, and for
every owned active job at startup.

The replies are counted in `resyncInflight`, which is set after the requests
went out; a refused send runs its callback before that.

## Main definitions

* `Node.afterOwnershipChange`: Drop the owner bookkeeping when demoted.
* `Node.onResyncReply`, `Node.resyncJob`: The asking side.
* `Node.handleResync`: The answering side.
-/

namespace Tautq

open Status

namespace Node

/-- Drop the owner's bookkeeping if the copy now names another owner; queue
    the job if it is ours and ready. -/
def afterOwnershipChange (n : Node) (id : JobId) : Node :=
  match n.find id with
  | none => n
  | some j =>
    if j.owner ≠ n.self then
      { n with
        leaseDeadline := n.leaseDeadline.erase id
        notBefore := n.notBefore.erase id
        repair := n.repair.erase id
        claims := n.claims.erase id }
    else if j.state = .ready then
      { n with ready := n.ready ++ [id] }
    else n

/-- One fewer resync reply is expected. -/
def resyncCountdown (n : Node) (id : JobId) : Node :=
  match n.resyncInflight.lookup id with
  | none => n
  | some k =>
    if k - 1 ≤ 0 then { n with resyncInflight := n.resyncInflight.erase id }
    else { n with resyncInflight := n.resyncInflight.insert id (k - 1) }

/-- A resync reply: adopt the copy if it strictly advances ours. -/
def onResyncReply (n : Node) (id : JobId) (code : Status) (body : Reply) : Node :=
  let n := n.resyncCountdown id
  if code ≠ kCreated then n
  else
    match body.asJob with
    | none => n
    | some remote =>
      if remote.id ≠ id then n
      else
        match n.find id with
        | none => n
        | some l =>
          if jobAdvances l remote then
            (n.commit (.replicate remote)).1.afterOwnershipChange id
          else n

/-- Ask every alive fellow member for its copy, unless already asking. -/
def resyncJob (n : Node) (id : JobId) : Node :=
  if id ∈ n.resyncInflight then n
  else
    match n.find id with
    | none => n
    | some j =>
      let targets := (j.peers n.self).filter (fun s => n.isAlive s.2)
      let n := targets.foldl (fun n s => n.call s.2 (.resync id) (.resync id)
        (fun n => n.onResyncReply id kBusy .empty)) n
      if targets = [] then n
      else { n with resyncInflight := n.resyncInflight.insert id targets.length }

/-- Answer with the stored copy. -/
def handleResync (n : Node) (ctx : ReqCtx) (id : JobId) : Node :=
  match n.find id with
  | none => n.respond ctx kUnknownJob .empty
  | some j => n.respond ctx kCreated (.job j)

end Node

end Tautq
