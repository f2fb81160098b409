import Tautq.Core.Codec
import Tautq.Core.Wal

/-!
# The Job Store on Its Log

The job table of a node with the log it is rebuilt from, down to the bytes on the
disk. The table has the records of the program: fixed-width numbers, and for the
state whatever byte a record carried.

Opening replays the log: every body that decodes is applied in order, and one that
does not is passed over. A commit encodes its record with the number of records
before it, appends it, and applies it if the append succeeded. A compaction writes
one full copy per job, sorted so that of several jobs with one key the one the index
names is replayed last.

## Main definitions

* `rawAdvances`: Whether a remote copy strictly advances the local one.
* `RawRecord.effect`: What a record makes of the stored copy of its job.
* `RawTable`, `RawTable.apply`, `rawReplay`: The table, and what a log replays to.
* `RawTable.snapshot`: The bodies a compaction writes.
* `JobStore`, `JobStore.openStore`, `JobStore.commit`, `JobStore.compact`: The store.
-/

namespace Tautq

/-- A stored id with its numbers. -/
@[coe] def RawId.toJobId (id : RawId) : JobId :=
  ⟨id.origin.toNat, id.nonce.toNat⟩

instance : Coe RawId JobId := ⟨RawId.toJobId⟩

/-! ### Records on copies -/

/-- The byte a state is stored as. -/
def JobState.byte : JobState → UInt8
  | .ready => 1
  | .leased => 2
  | .done => 3
  | .deadLetter => 4

/-- Whether the remote copy strictly advances the local one. -/
def rawAdvances (loc rem : RawJob) : Bool :=
  if rem.epoch ≠ loc.epoch then
    decide (loc.epoch < rem.epoch)
  else if decide (rem.state = JobState.done.byte) ≠ decide (loc.state = JobState.done.byte) then
    decide (rem.state = JobState.done.byte)
  else if decide (rem.state = JobState.deadLetter.byte) ≠
      decide (loc.state = JobState.deadLetter.byte) then
    decide (rem.state = JobState.deadLetter.byte)
  else if rem.leaseSeq ≠ loc.leaseSeq then
    decide (loc.leaseSeq < rem.leaseSeq)
  else
    decide (rem.state = JobState.leased.byte) && decide (loc.state = JobState.ready.byte)

namespace RawRecord

/-- The job a record is about. -/
def jobId : RawRecord → RawId
  | .submit j => j.id
  | .replicate j => j.id
  | .lease id _ _ _ => id
  | .done id _ _ => id
  | .expire id _ _ => id
  | .deadLetter id _ => id
  | .takeover id _ _ => id

/-- The full copy a record carries. -/
def full : RawRecord → Option RawJob
  | .submit j => some j
  | .replicate j => some j
  | _ => none

/-- A record's effect on a stored copy of its job. -/
def on (r : RawRecord) (l : RawJob) : RawJob :=
  match r with
  | .submit j => j
  | .replicate j => if rawAdvances l j then j else l
  | .lease _ epoch leaseSeq _ =>
    if l.epoch ≤ epoch ∧ l.state ≠ JobState.done.byte ∧ l.state ≠ JobState.deadLetter.byte then
      { l with state := JobState.leased.byte, epoch, leaseSeq, attempts := leaseSeq }
    else l
  | .done _ epoch _ =>
    if l.epoch ≤ epoch ∧ l.state ≠ JobState.done.byte then
      { l with state := JobState.done.byte, epoch, body := [] }
    else l
  | .expire _ epoch leaseSeq =>
    if l.epoch ≤ epoch ∧ l.state = JobState.leased.byte ∧ l.leaseSeq = leaseSeq then
      { l with state := JobState.ready.byte, epoch }
    else l
  | .deadLetter _ epoch =>
    if l.epoch ≤ epoch ∧ l.state ≠ JobState.done.byte then
      { l with state := JobState.deadLetter.byte, epoch }
    else l
  | .takeover _ newEpoch newOwner =>
    if l.epoch < newEpoch then { l with epoch := newEpoch, owner := newOwner } else l

/-- What a record makes of the stored copy of its job, if there is one. -/
def effect (r : RawRecord) : Option RawJob → Option RawJob
  | none => r.full
  | some l => some (r.on l)

end RawRecord

/-! ### The table -/

/-- The job table and the idempotency index. -/
structure RawTable where
  jobs : AList (fun _ : RawId => RawJob) := ∅
  byIdem : AList (fun _ : Bytes => RawId) := ∅
deriving Inhabited

namespace RawTable

def find (t : RawTable) (id : RawId) : Option RawJob :=
  t.jobs.lookup id

def findByIdem (t : RawTable) (key : Bytes) : Option RawJob :=
  (t.byIdem.lookup key).bind t.find

/-- One record's effect on the table. A full copy always claims its key. -/
def apply (t : RawTable) (r : RawRecord) : RawTable where
  jobs :=
    match r.effect (t.find r.jobId) with
    | none => t.jobs
    | some j => t.jobs.insert r.jobId j
  byIdem :=
    match r.full with
    | none => t.byIdem
    | some j => t.byIdem.insert j.idemKey j.id

/-- One replayed body. One that is not a record is passed over. -/
def replayBody (t : RawTable) (body : Bytes) : RawTable :=
  match decodeRecord body with
  | none => t
  | some (r, _) => t.apply r

/-- Whether the index names this job for its key. -/
def selected (t : RawTable) (j : RawJob) : Bool :=
  t.byIdem.lookup j.idemKey = some j.id

/-- The order copies are written in. -/
def before (t : RawTable) (a b : RawJob) : Bool :=
  if a.idemKey ≠ b.idemKey then a.idemKey < b.idemKey
  else if t.selected a ≠ t.selected b then !t.selected a
  else a.id.origin < b.id.origin || (a.id.origin = b.id.origin && a.id.nonce < b.id.nonce)

/-- The retained jobs in the order they are written in. -/
def retained (t : RawTable) : List RawJob :=
  (t.jobs.entries.map (·.2)).insertionSort (fun a b => t.before b a = false)

/-- The bodies a compaction writes: one full copy per job, numbered. -/
def snapshot (t : RawTable) : List Bytes :=
  t.retained.zipIdx.map (fun x => encodeRecord (.replicate x.1) (UInt64.ofNat x.2))

end RawTable

/-- The table a log replays to. -/
def rawReplay (bodies : List Bytes) : RawTable :=
  bodies.foldl RawTable.replayBody {}

/-! ### The store -/

/-- The running table, with the log behind it. -/
structure JobStore where
  wal : Wal
  table : RawTable := {}

namespace JobStore

variable (crc : Bytes → UInt32)

/-- `JobStore::open`, for a new store. -/
def openStore (segmentBytes : Nat) : Proc Volume (Bool × JobStore) := do
  let o ← Wal.openLog crc { segmentBytes }
  pure (o.ok, { wal := o.wal, table := rawReplay o.bodies })

def commit (s : JobStore) (r : RawRecord) (doSync : Bool) : Proc Volume (Bool × JobStore) := do
  let a ← s.wal.append crc (encodeRecord r (UInt64.ofNat s.wal.nextLsn)) doSync
  if a.1 then pure (true, { wal := a.2, table := s.table.apply r })
  else pure (false, { s with wal := a.2 })

def compact (s : JobStore) : Proc Volume (Bool × JobStore) := do
  let a ← s.wal.compact crc s.table.snapshot
  pure (a.1, { s with wal := a.2 })

end JobStore

end Tautq
