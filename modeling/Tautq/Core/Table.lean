import Mathlib.Data.List.AList
import Mathlib.Data.List.Sort
import Tautq.Core.Job

/-!
# The Job Table

The log records and the fold that turns them into a job table.

A node's table is rebuilt by folding its log through `apply`, and a live
commit goes through the same function, so the table a restart rebuilds and
the table the running node believes are the same fold.

The guards in `apply` are the receiving side of the protocol. Apply requests
ride an unordered channel, so a record can arrive after a later one: nothing
is applied below the copy's epoch, `done` absorbs every transition record,
and `deadLetter` yields only to `done`. Two things are deliberately as in the
program: a lease record sets the lease sequence number whatever it was, and a
full copy replaces the stored one whenever `jobAdvances` says so, the state
and the owner not being consulted across epochs.

A compaction writes the table as one full copy per job. The copies are sorted
so that of several jobs with one idempotency key the one the index names comes
last, since replaying a full copy points the index at it.

## Main definitions

* `Record`: The seven log record kinds.
* `Table`, `Table.apply`: The job table and one record's effect on it.
* `replay`: The table a log rebuilds.
* `Table.snapshot`: The records a compaction writes.
-/

namespace Tautq

/-- One log record per state transition. Submit and replicate records carry
    the whole job, the rest name it and the fencing fields. -/
inductive Record where
  | submit (job : Job)
  | replicate (job : Job)
  | lease (id : JobId) (epoch leaseSeq worker : Nat)
  | done (id : JobId) (epoch leaseSeq : Nat)
  | expire (id : JobId) (epoch leaseSeq : Nat)
  | deadLetter (id : JobId) (epoch : Nat)
  | takeover (id : JobId) (newEpoch : Nat) (newOwner : Endpoint)
deriving DecidableEq, Repr, Inhabited

/-- The job a record is about. -/
def Record.jobId : Record → JobId
  | .submit j => j.id
  | .replicate j => j.id
  | .lease id _ _ _ => id
  | .done id _ _ => id
  | .expire id _ _ => id
  | .deadLetter id _ => id
  | .takeover id _ _ => id

/-- The job table and the idempotency index. -/
structure Table where
  jobs : AList (fun _ : JobId => Job) := ∅
  byIdem : AList (fun _ : Bytes => JobId) := ∅
deriving Inhabited

namespace Table

/-- The stored copy of a job. -/
def find (t : Table) (id : JobId) : Option Job :=
  t.jobs.lookup id

/-- The stored copy the idempotency index names. -/
def findByIdem (t : Table) (key : Bytes) : Option Job :=
  (t.byIdem.lookup key).bind t.find

/-- Update a stored copy in place, if there is one and it passes the guard. -/
def amend (t : Table) (id : JobId) (guard : Job → Bool) (f : Job → Job) : Table :=
  match t.find id with
  | none => t
  | some j => if guard j then { t with jobs := t.jobs.insert id (f j) } else t

/-- One record's effect on the table. -/
def apply (t : Table) : Record → Table
  | .submit j => { jobs := t.jobs.insert j.id j, byIdem := t.byIdem.insert j.idemKey j.id }
  | .replicate j =>
    { jobs := match t.find j.id with
        | none => t.jobs.insert j.id j
        | some l => if jobAdvances l j then t.jobs.insert j.id j else t.jobs
      byIdem := t.byIdem.insert j.idemKey j.id }
  | .lease id epoch leaseSeq _ =>
    t.amend id (fun j => j.epoch ≤ epoch ∧ j.state ≠ .done ∧ j.state ≠ .deadLetter)
      (fun j => { j with state := .leased, epoch, leaseSeq, attempts := leaseSeq })
  | .done id epoch _ =>
    t.amend id (fun j => j.epoch ≤ epoch ∧ j.state ≠ .done)
      (fun j => { j with state := .done, epoch, body := [] })
  | .expire id epoch leaseSeq =>
    t.amend id (fun j => j.epoch ≤ epoch ∧ j.state = .leased ∧ j.leaseSeq = leaseSeq)
      (fun j => { j with state := .ready, epoch })
  | .deadLetter id epoch =>
    t.amend id (fun j => j.epoch ≤ epoch ∧ j.state ≠ .done)
      (fun j => { j with state := .deadLetter, epoch })
  | .takeover id newEpoch newOwner =>
    t.amend id (fun j => j.epoch < newEpoch)
      (fun j => { j with epoch := newEpoch, owner := newOwner })

end Table

/-- The table a log rebuilds. -/
def replay (wal : List Record) : Table :=
  wal.foldl Table.apply {}

theorem replay_snoc (wal : List Record) (r : Record) :
    replay (wal ++ [r]) = (replay wal).apply r := by
  rw [replay, List.foldl_append, List.foldl_cons, List.foldl_nil, replay]

namespace Table

/-- Whether the index names this job for its key. -/
def selected (t : Table) (j : Job) : Bool :=
  t.byIdem.lookup j.idemKey = some j.id

/-- The order copies are written in: by key, the one the index names last, then by
    id. -/
def before (t : Table) (a b : Job) : Bool :=
  if a.idemKey ≠ b.idemKey then a.idemKey < b.idemKey
  else if t.selected a ≠ t.selected b then !t.selected a
  else a.id.origin < b.id.origin || (a.id.origin = b.id.origin && a.id.nonce < b.id.nonce)

/-- The retained jobs in the order they are written in. -/
def retained (t : Table) : List Job :=
  (t.jobs.entries.map (·.2)).insertionSort (fun a b => t.before b a = false)

/-- The records a compaction writes: one full copy per job. -/
def snapshot (t : Table) : List Record :=
  t.retained.map .replicate

end Table

end Tautq
