import Mathlib.Data.Finset.Card
import Tautq.Core.JobStore

/-!
# The Verifier

`tautq-verify` replays the log of every node and judges a run: every accepted job is
done, no job was completed twice, and a key that was delivered more than once has a
cause in the logs.

It folds all logs, one directory after the other, into facts about each job: the most
advanced copy, the lease sequence numbers of the completions, and the largest lease
sequence number and epoch. A `Done` or `DeadLetter` record carries no copy, so it is
turned into one: the copy so far, with the state of the record, at the largest epoch so
far. A parked job needs a copy for that; a done one is made up if there is none.

Jobs are known by the hexadecimal text of their ids, as the submitter recorded them.

## Main definitions

* `JobFacts`, `JobFacts.fold`: What the logs say of a job.
* `Evidence`, `foldRecord`, `foldLogs`: The facts of all jobs.
* `Verdict`, `verify`: The three assertions.
-/

namespace Tautq

/-! ### Facts -/

/-- A job nothing is known of. -/
def RawJob.initial : RawJob where
  id := ⟨0, 0⟩
  idemKey := []
  url := []
  body := []
  visibilityMs := 30000
  maxAttempts := 5
  replicas := {}
  state := JobState.ready.byte
  owner := {}
  epoch := 1
  leaseSeq := 0
  attempts := 0

/-- What the logs say of a job: the most advanced copy, the lease sequence numbers of its
    completions, and the largest lease sequence number and epoch. -/
structure JobFacts where
  merged : RawJob := RawJob.initial
  haveCopy : Bool := false
  doneSeqs : Finset UInt32 := ∅
  maxLeaseSeq : UInt32 := 0
  maxEpoch : UInt32 := 1

namespace JobFacts

/-- Take a copy if there is none or it advances the one there is. -/
def adopt (f : JobFacts) (j : RawJob) : JobFacts :=
  if !f.haveCopy || rawAdvances f.merged j then { f with merged := j, haveCopy := true } else f

def foldJob (f : JobFacts) (j : RawJob) : JobFacts :=
  { f.adopt j with maxLeaseSeq := max f.maxLeaseSeq j.leaseSeq, maxEpoch := max f.maxEpoch j.epoch }

/-- The copy so far as a done one. -/
def doneMarker (f : JobFacts) (id : RawId) (epoch : UInt32) : RawJob :=
  { f.merged with id, state := JobState.done.byte, epoch := max f.maxEpoch epoch }

/-- The copy so far as a parked one. -/
def deadMarker (f : JobFacts) (epoch : UInt32) : RawJob :=
  { f.merged with state := JobState.deadLetter.byte, epoch := max f.maxEpoch epoch }

/-- What one record adds. -/
def fold (f : JobFacts) : RawRecord → JobFacts
  | .submit j => f.foldJob j
  | .replicate j => f.foldJob j
  | .lease _ epoch leaseSeq _ =>
    { f with maxLeaseSeq := max f.maxLeaseSeq leaseSeq, maxEpoch := max f.maxEpoch epoch }
  | .done id epoch leaseSeq =>
    ({ f with doneSeqs := insert leaseSeq f.doneSeqs } : JobFacts).adopt (f.doneMarker id epoch)
  | .takeover _ newEpoch _ => { f with maxEpoch := max f.maxEpoch newEpoch }
  | .deadLetter _ epoch => if f.haveCopy then f.adopt (f.deadMarker epoch) else f
  | .expire _ _ _ => f

end JobFacts

/-- The job a record says something of. Expiries are not looked at. -/
def RawRecord.about : RawRecord → Option RawId
  | .expire _ _ _ => none
  | r => some r.jobId

/-- The facts of every job, and for every key the jobs that were submitted with it. -/
structure Evidence where
  jobs : AList (fun _ : Bytes => JobFacts) := ∅
  keyIds : AList (fun _ : Bytes => Finset Bytes) := ∅

namespace Evidence

/-- What is known of a job. -/
def facts (e : Evidence) (hex : Bytes) : JobFacts :=
  (e.jobs.lookup hex).getD {}

/-- The jobs with a key. -/
def idsOf (e : Evidence) (key : Bytes) : Finset Bytes :=
  (e.keyIds.lookup key).getD ∅

end Evidence

def foldRecord (e : Evidence) (r : RawRecord) : Evidence where
  jobs :=
    match r.about with
    | none => e.jobs
    | some id => e.jobs.insert (toHex id) ((e.facts (toHex id)).fold r)
  keyIds :=
    match r.full with
    | none => e.keyIds
    | some j => e.keyIds.insert j.idemKey (insert (toHex j.id) (e.idsOf j.idemKey))

/-- One replayed body. One that is not a record is passed over. -/
def foldBody (e : Evidence) (body : Bytes) : Evidence :=
  match decodeRecord body with
  | none => e
  | some (r, _) => foldRecord e r

/-- The logs of all nodes, in the order they are given. -/
def foldLogs (logs : List (List Bytes)) : Evidence :=
  logs.foldl (fun e bodies => bodies.foldl foldBody e) {}

/-! ### The assertions -/

/-- A line of the submitter: the key, the id it was given, and the code. -/
structure SubmitLine where
  key : Bytes
  id : Bytes
  code : Nat
deriving DecidableEq, Repr, Inhabited

/-- The accepted submits, by key. -/
def acceptedOf (submits : List SubmitLine) : AList (fun _ : Bytes => Bytes) :=
  submits.foldl (fun m s => if s.code = 200 ∨ s.code = 201 then m.insert s.key s.id else m) ∅

/-- How often each key was delivered. -/
def deliveriesOf (receipts : List Bytes) : AList (fun _ : Bytes => Nat) :=
  receipts.foldl (fun m key => m.insert key ((m.lookup key).getD 0 + 1)) ∅

/-- The counts the verifier prints, and whether the run passes. -/
structure Verdict where
  lost : Nat
  doubleDone : Nat
  unexplained : Nat
  deadLetters : Nat
  twins : Nat
  pass : Bool
deriving DecidableEq, Repr

namespace Evidence

/-- Whether a job's merged copy is in a state. -/
def inState (e : Evidence) (hex : Bytes) (s : JobState) : Bool :=
  (e.jobs.lookup hex).any (fun f => f.merged.state = s.byte)

/-- Several jobs share a key. -/
def twin (e : Evidence) (key : Bytes) : Bool :=
  1 < (e.idsOf key).card

/-- The logs show more than one grant or an epoch change. -/
def retried (e : Evidence) (hex : Bytes) : Bool :=
  (e.jobs.lookup hex).any (fun f => 1 < f.maxLeaseSeq || 1 < f.maxEpoch)

/-- The three assertions, on accepted submits and counted deliveries. -/
def judge (e : Evidence) (allowDlq : Bool) (accepted : AList (fun _ : Bytes => Bytes))
    (deliveries : AList (fun _ : Bytes => Nat)) : Verdict :=
  let lost := accepted.entries.countP (fun a =>
    !e.inState a.2 .done && !(allowDlq && e.inState a.2 .deadLetter))
  let doubleDone := e.jobs.entries.countP (fun f => 1 < f.2.doneSeqs.card)
  let unexplained := deliveries.entries.countP (fun d =>
    1 < d.2 && !(e.twin d.1 || (accepted.lookup d.1).any e.retried))
  { lost, doubleDone, unexplained
    deadLetters := accepted.entries.countP (fun a => e.inState a.2 .deadLetter)
    twins := deliveries.entries.countP (fun d => 1 < d.2 && e.twin d.1)
    pass := lost = 0 && doubleDone = 0 && unexplained = 0 }

end Evidence

def verify (allowDlq : Bool) (submits : List SubmitLine) (receipts : List Bytes)
    (logs : List (List Bytes)) : Verdict :=
  (foldLogs logs).judge allowDlq (acceptedOf submits) (deliveriesOf receipts)

end Tautq
