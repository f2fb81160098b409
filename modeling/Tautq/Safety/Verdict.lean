import Mathlib.Data.List.Induction
import Mathlib.Data.Prod.Lex
import Mathlib.Order.Bounds.Basic
import Tautq.Core.Verify
import Tautq.Lib.Arrange

/-!
# Judging in Any Order

The verifier reads the logs of the nodes one after the other. Most of what it learns
does not depend on the order: which completions there were, the largest epoch and lease
sequence number of a job, and which jobs share a key. Whether a job is lost does.
A completion is turned into a copy at the largest epoch seen so far, and a log that is
read later can have a larger one; a parked job is only noted where a copy came before it.
In `verdict_depends_on_order` the same two logs pass in one order and fail in the other.

The merged copy is the best one that was offered, so a job is a contest between the copies
that count and those that do not. A completion, and a parking where parked jobs are allowed,
is on the one side, and a parking otherwise on the other; the epoch it is offered at is that
of its record, or of a record before it in its own log, or of a record in a log before. What
the order can change of such a contest is settled in general, and from that follows which
logs have one verdict in every order (`verdict_in_any_order`).

## Main definitions

* `recordsOf`, `ofJob`: The records of a log, and those about one job.
* `RawJob.counts`, `RawRecord.marks`: The copies of a side, and the records that make them.
* `JobFacts.Offered`: The copies that are offered on the way.
* `contest`: What is between the copies of a job.
* `Concluded`, `Decided`: The order of the logs does not matter to a job, and to any job.
* `CopyFirst`, `ParkedBehind`: Every parking is behind a copy in its own log.

## Theorems

* `lookup_foldRecords`: The facts of a job come from its own records.
* `tally_perm`: The facts that do not depend on the order.
* `merged_offered`: The merged copy is the best one that was offered.
* `offered_above`, `offered_below`: What is offered, by logs.
* `counts_perm`, `concluded_of_counts`: The order does not matter where `Concluded` says so, and
  only there.
* `verdict_in_any_order`: The verdict, in any order.
-/

namespace Tautq

/-! ### The records of one job -/

/-- The records in a log. -/
def recordsOf (bodies : List Bytes) : List RawRecord :=
  bodies.filterMap (fun b => (decodeRecord b).map Prod.fst)

/-- The records that say something of a job. -/
def ofJob (hex : Bytes) (rs : List RawRecord) : List RawRecord :=
  rs.filter (fun r => r.about.map (fun id : RawId => toHex id) = some hex)

theorem foldl_foldBody (bodies : List Bytes) (e : Evidence) :
    bodies.foldl foldBody e = (recordsOf bodies).foldl foldRecord e := by
  induction bodies generalizing e with
  | nil => rfl
  | cons b bodies ih =>
    have hcons : recordsOf (b :: bodies) = ((decodeRecord b).map Prod.fst).toList ++
        recordsOf bodies := by
      rw [recordsOf, List.filterMap_cons]
      cases (decodeRecord b).map Prod.fst <;> rfl
    rw [List.foldl_cons, ih, hcons, List.foldl_append, foldBody]
    cases decodeRecord b with
    | none => rfl
    | some x => rfl

/-- The logs are one list of records to the verifier. -/
theorem foldLogs_eq (logs : List (List Bytes)) :
    foldLogs logs = (logs.flatMap recordsOf).foldl foldRecord {} := by
  rw [foldLogs, List.foldl_flatMap]
  simp only [foldl_foldBody]

section Facts

variable (rs : List RawRecord) (e : Evidence) (hex key : Bytes)

theorem lookup_foldRecord (r : RawRecord) :
    (foldRecord e r).jobs.lookup hex =
      if r.about.map (fun id : RawId => toHex id) = some hex then some ((e.facts hex).fold r)
      else e.jobs.lookup hex := by
  unfold foldRecord
  cases habout : r.about with
  | none => rw [if_neg (by simp)]
  | some id =>
    by_cases hid : toHex id = hex
    · rw [if_pos (by rw [Option.map_some, hid]), ← hid]
      exact AList.lookup_insert e.jobs
    · rw [if_neg (by simpa using hid)]
      exact AList.lookup_insert_ne (Ne.symm hid)

theorem facts_foldRecord (r : RawRecord) : (foldRecord e r).facts hex =
    if r.about.map (fun id : RawId => toHex id) = some hex then (e.facts hex).fold r
    else e.facts hex := by
  rw [Evidence.facts, lookup_foldRecord]
  split <;> rfl

/-- The facts of a job come from its own records. -/
theorem lookup_foldRecords : (rs.foldl foldRecord e).jobs.lookup hex =
    if ofJob hex rs = [] then e.jobs.lookup hex
    else some ((ofJob hex rs).foldl JobFacts.fold (e.facts hex)) := by
  induction rs generalizing e with
  | nil => rw [if_pos (by rfl), List.foldl_nil]
  | cons r rs ih =>
    rw [List.foldl_cons, ih, lookup_foldRecord, facts_foldRecord]
    by_cases hr : r.about.map (fun id : RawId => toHex id) = some hex
    · -- From here on the job has an entry.
      have hof : ofJob hex (r :: rs) = r :: ofJob hex rs :=
        List.filter_cons_of_pos (by simpa using hr)
      rw [if_pos hr, if_pos hr, hof, if_neg (List.cons_ne_nil _ _), List.foldl_cons]
      split
      · rename_i hnil
        rw [hnil, List.foldl_nil]
      · rfl
    · have hof : ofJob hex (r :: rs) = ofJob hex rs := List.filter_cons_of_neg (by simpa using hr)
      rw [if_neg hr, if_neg hr, hof]

theorem idsOf_foldRecord (r : RawRecord) : (foldRecord e r).idsOf key =
    match r.full with
    | none => e.idsOf key
    | some j => if j.idemKey = key then insert (toHex j.id) (e.idsOf key) else e.idsOf key := by
  unfold foldRecord Evidence.idsOf
  cases r.full with
  | none => rfl
  | some j =>
    simp only
    by_cases hkey : j.idemKey = key
    · rw [if_pos hkey, hkey, AList.lookup_insert, Option.getD_some]
    · rw [if_neg hkey, AList.lookup_insert_ne (Ne.symm hkey)]

end Facts

/-! ### What does not depend on the order -/

theorem toNat_max (a b : UInt32) : (max a b).toNat = max a.toNat b.toNat := by
  change (if a ≤ b then b else a).toNat = _
  split
  · rename_i h
    exact (Nat.max_eq_right (UInt32.le_iff_toNat_le.mp h)).symm
  · rename_i h
    exact (Nat.max_eq_left (Nat.le_of_not_le (fun h' => h (UInt32.le_iff_toNat_le.mpr h')))).symm

theorem max_right_comm_uint32 (a b c : UInt32) : max (max a b) c = max (max a c) b := by
  rw [← UInt32.toNat_inj]
  simp only [toNat_max]
  omega

/-- The facts that do not depend on the order. -/
def JobFacts.tally (f : JobFacts) : Finset UInt32 × UInt32 × UInt32 :=
  (f.doneSeqs, f.maxLeaseSeq, f.maxEpoch)

/-- What a record adds to them. -/
def RawRecord.adds : RawRecord → Finset UInt32 × UInt32 × UInt32
  | .submit j | .replicate j => (∅, j.leaseSeq, j.epoch)
  | .lease _ epoch leaseSeq _ => (∅, leaseSeq, epoch)
  | .done _ _ leaseSeq => ({leaseSeq}, 0, 0)
  | .takeover _ newEpoch _ => (∅, 0, newEpoch)
  | .deadLetter _ _ | .expire _ _ _ => (∅, 0, 0)

/-- A tally with what a record adds. -/
def tallyStep (t : Finset UInt32 × UInt32 × UInt32) (r : RawRecord) :
    Finset UInt32 × UInt32 × UInt32 :=
  (t.1 ∪ r.adds.1, max t.2.1 r.adds.2.1, max t.2.2 r.adds.2.2)

instance : RightCommutative tallyStep where
  right_comm t r r' := by
    rw [tallyStep, tallyStep, tallyStep, tallyStep, Finset.union_right_comm,
      max_right_comm_uint32 t.2.1, max_right_comm_uint32 t.2.2]

theorem max_zero_uint32 (a : UInt32) : max a 0 = a := by
  rw [← UInt32.toNat_inj, toNat_max]
  exact Nat.max_eq_left (Nat.zero_le _)

theorem tally_adopt (f : JobFacts) (j : RawJob) : (f.adopt j).tally = f.tally := by
  unfold JobFacts.adopt
  split <;> rfl

theorem tally_fold (f : JobFacts) (r : RawRecord) : (f.fold r).tally = tallyStep f.tally r := by
  have hnone : f.tally = (f.tally.1 ∪ ∅, max f.tally.2.1 0, max f.tally.2.2 0) := by
    rw [Finset.union_empty, max_zero_uint32, max_zero_uint32]
  cases r with
  | submit j | replicate j =>
    have hseqs : (f.adopt j).doneSeqs = f.doneSeqs := congrArg Prod.fst (tally_adopt f j)
    simp only [JobFacts.fold, JobFacts.foldJob, tallyStep, JobFacts.tally, RawRecord.adds, hseqs,
      Finset.union_empty]
  | done id epoch leaseSeq =>
    refine (tally_adopt _ _).trans ?_
    simp only [tallyStep, JobFacts.tally, RawRecord.adds, max_zero_uint32, Finset.insert_eq,
      Finset.union_comm f.doneSeqs]
  | deadLetter id epoch =>
    change (if f.haveCopy then f.adopt (f.deadMarker epoch) else f).tally = _
    split
    · exact (tally_adopt _ _).trans hnone
    · exact hnone
  | lease | takeover =>
    simp only [JobFacts.fold, tallyStep, JobFacts.tally, RawRecord.adds, max_zero_uint32,
      Finset.union_empty]
  | expire => exact hnone

theorem tally_foldl (rs : List RawRecord) (f : JobFacts) :
    (rs.foldl JobFacts.fold f).tally = rs.foldl tallyStep f.tally := by
  induction rs generalizing f with
  | nil => rfl
  | cons r rs ih => rw [List.foldl_cons, ih, tally_fold, List.foldl_cons]

/-- The completions, and the largest epoch and lease sequence number, in any order. -/
theorem tally_perm {rs rs' : List RawRecord} (h : rs.Perm rs') (f : JobFacts) :
    (rs.foldl JobFacts.fold f).tally = (rs'.foldl JobFacts.fold f).tally := by
  rw [tally_foldl, tally_foldl, h.foldl_eq]

/-! ### The merged copy -/

/-- Whether a stored job is done or parked. -/
def RawJob.isDone (j : RawJob) : Bool :=
  j.state = JobState.done.byte

def RawJob.isDead (j : RawJob) : Bool :=
  j.state = JobState.deadLetter.byte

/-- A job with this copy is not lost. -/
def RawJob.counts (dlq : Bool) (j : RawJob) : Bool :=
  j.isDone || dlq && j.isDead

/-- What the verdict needs of a copy, as the merge order compares it. -/
def RawJob.mark (dlq : Bool) (j : RawJob) : ℕ ×ₗ Bool :=
  toLex (j.epoch.toNat, j.counts dlq)

theorem mark_le_iff (dlq : Bool) (a b : RawJob) : a.mark dlq ≤ b.mark dlq ↔
    a.epoch.toNat < b.epoch.toNat ∨
      (a.epoch.toNat = b.epoch.toNat ∧ a.counts dlq ≤ b.counts dlq) := by
  simp only [RawJob.mark, Prod.Lex.toLex_le_toLex]

/-- A copy that advances another is not marked lower, and one that does not is not marked
    higher. -/
theorem mark_le_of_advances (dlq : Bool) (a b : RawJob) :
    if rawAdvances a b then a.mark dlq ≤ b.mark dlq else b.mark dlq ≤ a.mark dlq := by
  have hdead : ∀ j : RawJob, j.isDone = true → j.isDead = false := by
    intro j h
    rw [RawJob.isDead, of_decide_eq_true h]
    rfl
  rw [mark_le_iff, mark_le_iff]
  unfold rawAdvances
  by_cases he : b.epoch = a.epoch
  swap
  · have hne : b.epoch.toNat ≠ a.epoch.toNat := fun h => he (UInt32.toNat_inj.mp h)
    simp only [he, ne_eq, not_false_eq_true, if_true, decide_eq_true_eq, UInt32.lt_iff_toNat_lt]
    split <;> omega
  rw [if_neg (not_not.mpr he), he]
  simp only [lt_irrefl, true_and, false_or]
  -- Within an epoch only being done or parked makes a difference here.
  change if (if b.isDone ≠ a.isDone then b.isDone
    else if b.isDead ≠ a.isDead then b.isDead else _) = true then _ else _
  unfold RawJob.counts
  have ha := hdead a
  have hb := hdead b
  cases a.isDone <;> cases b.isDone <;> cases a.isDead <;> cases b.isDead <;> cases dlq <;>
    simp_all

/-- The epoch a record is of. -/
def RawRecord.epoch : RawRecord → UInt32
  | .submit j => j.epoch
  | .replicate j => j.epoch
  | .lease _ epoch _ _ => epoch
  | .done _ epoch _ => epoch
  | .expire _ epoch _ => epoch
  | .deadLetter _ epoch => epoch
  | .takeover _ newEpoch _ => newEpoch

/-- Whether a record is a completion. -/
def RawRecord.completes : RawRecord → Bool
  | .done _ _ _ => true
  | _ => false

/-- Whether a record parks its job. -/
def RawRecord.parks : RawRecord → Bool
  | .deadLetter _ _ => true
  | _ => false

/-- There is a copy from this record on. -/
def RawRecord.source (r : RawRecord) : Bool :=
  r.full.isSome || r.completes

/-- A record is made into a copy that counts, or into one that does not; `t` says whether
    parkings are looked at. -/
def RawRecord.marks (dlq side t : Bool) (r : RawRecord) : Bool :=
  r.completes && side || t && r.parks && dlq == side

/-- A record carries a copy of a side, of at least an epoch. -/
def RawRecord.copied (dlq side : Bool) (n : ℕ) (r : RawRecord) : Bool :=
  r.full.any fun j => j.counts dlq == side && decide (n ≤ j.epoch.toNat)

/-- Later copies are made up at an epoch of at least this one. -/
def RawRecord.raises (n : ℕ) (r : RawRecord) : Bool :=
  n ≤ r.adds.2.2.toNat

namespace JobFacts

variable {f : JobFacts} {r : RawRecord} {j : RawJob} {rs : List RawRecord} {n : ℕ}
  {dlq side t : Bool}

/-- The copy a record is taken for. -/
def offer (f : JobFacts) : RawRecord → Option RawJob
  | .submit j => some j
  | .replicate j => some j
  | .done id epoch _ => some (f.doneMarker id epoch)
  | .deadLetter _ epoch => if f.haveCopy then some (f.deadMarker epoch) else none
  | _ => none

/-- A copy is offered, and the better one is kept. -/
structure Takes (f : JobFacts) (j : RawJob) (f' : JobFacts) : Prop where
  haveCopy : f'.haveCopy = true
  new : ∀ dlq, j.mark dlq ≤ f'.merged.mark dlq
  old : f.haveCopy = true → ∀ dlq, f.merged.mark dlq ≤ f'.merged.mark dlq
  either : f'.merged = j ∨ (f.haveCopy = true ∧ f'.merged = f.merged)

theorem takes_adopt (f : JobFacts) (j : RawJob) : Takes f j (f.adopt j) := by
  have hmark := fun dlq => mark_le_of_advances dlq f.merged j
  unfold adopt
  cases hc : f.haveCopy with
  | false =>
    refine ⟨rfl, fun _ => le_refl _, fun h => ?_, .inl rfl⟩
    rw [hc] at h
    cases h
  | true =>
    cases hadv : rawAdvances f.merged j with
    | true =>
      simp only [hadv, if_true] at hmark
      exact ⟨rfl, fun _ => le_refl _, fun _ => hmark, .inl rfl⟩
    | false =>
      simp only [hadv, Bool.false_eq_true, if_false] at hmark
      exact ⟨hc, hmark, fun _ _ => le_refl _, .inr ⟨hc, rfl⟩⟩

/-- A record leaves the copy alone or offers one. -/
theorem fold_cases (f : JobFacts) (r : RawRecord) :
    (f.offer r = none ∧ (f.fold r).haveCopy = f.haveCopy ∧ (f.fold r).merged = f.merged) ∨
      ∃ j, f.offer r = some j ∧ Takes f j (f.fold r) := by
  cases r with
  | submit j | replicate j =>
    have h := takes_adopt f j
    exact .inr ⟨j, rfl, h.haveCopy, h.new, h.old, h.either⟩
  | done id epoch leaseSeq =>
    have h := takes_adopt { f with doneSeqs := insert leaseSeq f.doneSeqs } (f.doneMarker id epoch)
    exact .inr ⟨_, rfl, h.haveCopy, h.new, h.old, h.either⟩
  | deadLetter id epoch =>
    cases hc : f.haveCopy with
    | false => exact .inl (by simp [offer, fold, hc])
    | true =>
      refine .inr ⟨f.deadMarker epoch, if_pos hc, ?_⟩
      rw [show f.fold (.deadLetter id epoch) = f.adopt (f.deadMarker epoch) from if_pos hc]
      exact takes_adopt f _
  | lease | expire | takeover => exact .inl ⟨rfl, rfl, rfl⟩

/-- A copy that is offered on the way. -/
def Offered (rs : List RawRecord) (j : RawJob) : Prop :=
  ∃ before r after, rs = before ++ r :: after ∧ (before.foldl fold {}).offer r = some j

theorem offered_concat : Offered (rs ++ [r]) j ↔
    Offered rs j ∨ (rs.foldl fold {}).offer r = some j := by
  constructor
  · rintro ⟨before, r', after, heq, hoffer⟩
    rcases List.eq_nil_or_concat after with rfl | ⟨after, r'', rfl⟩
    · have h := List.append_inj' heq rfl
      cases h.2
      exact Or.inr (h.1 ▸ hoffer)
    · rw [List.concat_eq_append, ← List.cons_append, ← List.append_assoc] at heq
      exact Or.inl ⟨before, r', after, (List.append_inj' heq rfl).1, hoffer⟩
  · rintro (⟨before, r', after, rfl, hoffer⟩ | hoffer)
    · exact ⟨before, r', after ++ [r], by simp, hoffer⟩
    · exact ⟨rs, r, [], rfl, hoffer⟩

/-- The merged copy is the best one that was offered. -/
theorem merged_offered (rs : List RawRecord) :
    ((rs.foldl fold {}).haveCopy = false ∧ (rs.foldl fold {}).merged = RawJob.initial ∧
        ∀ j, ¬ Offered rs j) ∨
      ((rs.foldl fold {}).haveCopy = true ∧ Offered rs (rs.foldl fold {}).merged ∧
        ∀ j, Offered rs j → ∀ dlq, j.mark dlq ≤ (rs.foldl fold {}).merged.mark dlq) := by
  induction rs using List.reverseRecOn with
  | nil => exact Or.inl ⟨rfl, rfl, fun j ⟨before, r, after, heq, _⟩ => by simp at heq⟩
  | append_singleton rs r ih =>
    simp only [offered_concat, List.foldl_append, List.foldl_cons, List.foldl_nil]
    rcases fold_cases (rs.foldl fold {}) r with ⟨hnone, hc, hsame⟩ | ⟨j, hj, htakes⟩
    · simpa only [hc, hsame, hnone, reduceCtorEq, or_false] using ih
    · refine Or.inr ⟨htakes.haveCopy, ?_, fun j' hj' => ?_⟩
      · rcases htakes.either with hnew | ⟨hc, hsame⟩
        · exact Or.inr (hnew ▸ hj)
        · rcases ih with ⟨hno, -⟩ | ⟨-, hbest, -⟩
          · rw [hc] at hno
            cases hno
          · exact Or.inl (hsame ▸ hbest)
      · rcases hj' with hold | hnew
        · rcases ih with ⟨-, -, hno⟩ | ⟨hc, -, hall⟩
          · exact absurd hold (hno j')
          · exact fun dlq => (hall j' hold dlq).trans (htakes.old hc dlq)
        · rw [hj, Option.some.injEq] at hnew
          exact hnew ▸ htakes.new

/-- There is a copy once a record has brought one. -/
theorem haveCopy_eq (rs : List RawRecord) :
    (rs.foldl fold {}).haveCopy = rs.any RawRecord.source := by
  induction rs using List.reverseRecOn with
  | nil => rfl
  | append_singleton rs r ih =>
    rw [List.foldl_append, List.foldl_cons, List.foldl_nil, List.any_append, ← ih]
    generalize rs.foldl fold {} = g
    cases r with
    | submit j | replicate j =>
      simp [RawRecord.source, RawRecord.full, fold, foldJob, (takes_adopt g j).haveCopy]
    | done id epoch leaseSeq =>
      have h := (takes_adopt { g with doneSeqs := insert leaseSeq g.doneSeqs }
        (g.doneMarker id epoch)).haveCopy
      simp [RawRecord.source, RawRecord.completes, fold, h]
    | deadLetter id epoch =>
      have h := (takes_adopt g (g.deadMarker epoch)).haveCopy
      cases hc : g.haveCopy <;>
        simp [RawRecord.source, RawRecord.full, RawRecord.completes, fold, hc, h]
    | lease | expire | takeover =>
      simp [RawRecord.source, RawRecord.full, RawRecord.completes, fold]

/-! #### Epochs -/

theorem maxEpoch_fold (f : JobFacts) (r : RawRecord) :
    (f.fold r).maxEpoch.toNat = max f.maxEpoch.toNat r.adds.2.2.toNat := by
  rw [← toNat_max]
  exact congrArg (fun t => t.2.2.toNat) (tally_fold f r)

theorem le_maxEpoch (rs : List RawRecord) : n ≤ (rs.foldl fold {}).maxEpoch.toNat ↔
    n ≤ 1 ∨ rs.any (RawRecord.raises n) = true := by
  induction rs using List.reverseRecOn with
  | nil => simp
  | append_singleton rs r ih =>
    rw [List.foldl_append, List.foldl_cons, List.foldl_nil, maxEpoch_fold, le_max_iff, ih,
      List.any_append, Bool.or_eq_true, or_assoc]
    simp [RawRecord.raises]

/-- An offered copy is the one a record carries, or made up at the largest epoch. -/
theorem offer_cases (h : f.offer r = some j) (dlq : Bool) : r.full = some j ∨
    (r.marks dlq (j.counts dlq) true = true ∧
      j.epoch.toNat = max f.maxEpoch.toNat r.epoch.toNat) := by
  cases r with
  | submit | replicate => exact .inl h
  | done id epoch leaseSeq =>
    cases h
    exact .inr ⟨rfl, toNat_max _ _⟩
  | deadLetter id epoch =>
    change (if f.haveCopy then some (f.deadMarker epoch) else none) = some j at h
    split at h
    · cases h
      exact .inr ⟨by cases dlq <;> rfl, toNat_max _ _⟩
    · cases h
  | lease | expire | takeover => cases h

theorem full_epoch (h : r.full = some j) : j.epoch = r.epoch := by
  cases r with
  | submit | replicate =>
    cases h
    rfl
  | lease | done | expire | deadLetter | takeover => cases h

theorem offer_of_full (h : r.full = some j) (f : JobFacts) : f.offer r = some j := by
  cases r with
  | submit | replicate => exact h
  | lease | done | expire | deadLetter | takeover => cases h

/-- A record of a side is made into a copy of it, if parkings that are looked at find one. -/
theorem offer_of_marks (hmarks : r.marks dlq side t = true)
    (hcopy : t = true → r.parks = true → f.haveCopy = true) :
    ∃ j, f.offer r = some j ∧ j.counts dlq = side ∧
      j.epoch.toNat = max f.maxEpoch.toNat r.epoch.toNat := by
  cases r with
  | done id epoch leaseSeq =>
    have hside : side = true := by
      simpa [RawRecord.marks, RawRecord.completes, RawRecord.parks] using hmarks
    exact ⟨_, rfl, hside ▸ rfl, toNat_max _ _⟩
  | deadLetter id epoch =>
    simp only [RawRecord.marks, RawRecord.completes, RawRecord.parks, Bool.false_and,
      Bool.false_or, Bool.and_true, Bool.and_eq_true, beq_iff_eq] at hmarks
    refine ⟨_, if_pos (hcopy hmarks.1 rfl), ?_, toNat_max _ _⟩
    rw [← hmarks.2]
    cases dlq <;> rfl
  | submit | replicate | lease | expire | takeover =>
    simp [RawRecord.marks, RawRecord.completes, RawRecord.parks] at hmarks

/-- A record of a kind is made into a copy of at least an epoch. -/
def stamped (kind : RawRecord → Bool) (n : ℕ) (rs : List RawRecord) : Bool :=
  rs.any (fun r => kind r && decide (n ≤ max 1 r.epoch.toNat)) ||
    decide (Before (RawRecord.raises n) kind rs)

theorem stamped_iff {kind : RawRecord → Bool} : stamped kind n rs = true ↔
    ∃ before r after, rs = before ++ r :: after ∧ kind r = true ∧
      n ≤ max (before.foldl fold {}).maxEpoch.toNat r.epoch.toNat := by
  simp only [stamped, Bool.or_eq_true, List.any_eq_true, Bool.and_eq_true, decide_eq_true_eq,
    le_max_iff, le_maxEpoch]
  constructor
  · rintro (⟨r, hr, hkind, hle⟩ | hbefore)
    · rcases List.append_of_mem hr with ⟨before, after, rfl⟩
      exact ⟨before, r, after, rfl, hkind, hle.imp Or.inl id⟩
    · rcases before_iff.mp hbefore with ⟨before, r, after, rfl, hkind, hraises⟩
      exact ⟨before, r, after, rfl, hkind, Or.inl (Or.inr hraises)⟩
  · rintro ⟨before, r, after, rfl, hkind, (hone | hraises) | hle⟩
    · exact Or.inl ⟨r, by simp, hkind, Or.inl hone⟩
    · exact Or.inr (before_iff.mpr ⟨before, r, after, rfl, hkind, hraises⟩)
    · exact Or.inl ⟨r, by simp, hkind, Or.inr hle⟩

theorem stamped_flatten {kind : RawRecord → Bool} {ls : List (List RawRecord)} :
    stamped kind n ls.flatten = true ↔ (∃ l ∈ ls, stamped kind n l = true) ∨
      Before (fun l => l.any (RawRecord.raises n)) (fun l => l.any kind) ls := by
  simp only [stamped, Bool.or_eq_true, decide_eq_true_eq, List.any_flatten, before_flatten,
    List.any_eq_true]
  grind

end JobFacts

/-! ### The contest -/

/-- Every parking in a log is behind a copy. -/
def CopyFirst (l : List RawRecord) : Bool :=
  (l.takeWhile fun r => !r.source).all fun r => !r.parks

/-- The largest epoch of a record. -/
def topEpoch (rs : List RawRecord) : ℕ :=
  (rs.map fun r => r.epoch.toNat).foldr max 1

/-- The copies that count against the others, in logs with records of one job. Parkings of a side
    are looked at in the logs that the side is trusted for. -/
def contest (dlq : Bool) (ls : List (List RawRecord)) (up down : List RawRecord → Bool) :
    Contest (List RawRecord) where
  bound := topEpoch ls.flatten
  high n l := l.any (RawRecord.raises n)
  ours l := l.any (RawRecord.marks dlq true (up l))
  theirs l := l.any (RawRecord.marks dlq false (down l))
  we n := ls.any fun l => l.any (RawRecord.copied dlq true n) ||
    JobFacts.stamped (RawRecord.marks dlq true (up l)) n l
  they n := ls.any fun l => l.any (RawRecord.copied dlq false n) ||
    JobFacts.stamped (RawRecord.marks dlq false (down l)) n l
  mono {m n l} hle h := by
    rcases List.any_eq_true.mp h with ⟨r, hr, hn⟩
    exact List.any_eq_true.mpr ⟨r, hr, decide_eq_true (hle.trans (of_decide_eq_true hn))⟩

section Contest

variable {dlq side : Bool} {ls ls' : List (List RawRecord)} {j : RawJob} {n : ℕ}

theorem le_topEpoch {rs : List RawRecord} {r : RawRecord} (hr : r ∈ rs) :
    r.epoch.toNat ≤ topEpoch rs := by
  induction rs with
  | nil => cases hr
  | cons r' rs ih =>
    rcases List.mem_cons.mp hr with rfl | hr
    · exact Nat.le_max_left _ _
    · exact (ih hr).trans (Nat.le_max_right _ _)

theorem one_le_topEpoch (rs : List RawRecord) : 1 ≤ topEpoch rs := by
  induction rs with
  | nil => exact le_refl 1
  | cons r rs ih => exact ih.trans (Nat.le_max_right _ _)

theorem topEpoch_perm (h : ls.Perm ls') : topEpoch ls'.flatten = topEpoch ls.flatten :=
  (h.flatten.map _).symm.foldr_eq 1

theorem adds_le_epoch (r : RawRecord) : r.adds.2.2.toNat ≤ r.epoch.toNat := by
  cases r with
  | submit | replicate | lease | takeover => exact le_refl _
  | done | deadLetter | expire => exact Nat.zero_le _

/-- No copy is offered at an epoch beyond those of the records. -/
theorem epoch_le_of_offered {rs : List RawRecord} (h : JobFacts.Offered rs j) :
    j.epoch.toNat ≤ topEpoch rs := by
  rcases h with ⟨before, r, after, rfl, hoffer⟩
  have hr : r.epoch.toNat ≤ topEpoch (before ++ r :: after) := le_topEpoch (by simp)
  rcases JobFacts.offer_cases hoffer false with hfull | ⟨-, hepoch⟩
  · rw [JobFacts.full_epoch hfull]
    exact hr
  · rw [hepoch]
    refine Nat.max_le.mpr ⟨?_, hr⟩
    rcases (JobFacts.le_maxEpoch before).mp (le_refl _) with hone | hraises
    · exact hone.trans (one_le_topEpoch _)
    · rcases List.any_eq_true.mp hraises with ⟨r', hr', hle⟩
      have hmem : r' ∈ before ++ r :: after := List.mem_append_left _ hr'
      exact (of_decide_eq_true hle).trans ((adds_le_epoch r').trans (le_topEpoch hmem))

theorem copied_iff {r : RawRecord} : r.copied dlq side n = true ↔
    ∃ j, r.full = some j ∧ j.counts dlq = side ∧ n ≤ j.epoch.toNat := by
  rw [RawRecord.copied]
  cases r.full <;> simp

/-- What is offered at an epoch is carried by a record, or a record is made into it behind one of
    that epoch. -/
theorem offered_above (dlq : Bool) (h : JobFacts.Offered ls.flatten j) (hn : n ≤ j.epoch.toNat) :
    (ls.any fun l => l.any (RawRecord.copied dlq (j.counts dlq) n) ||
        JobFacts.stamped (RawRecord.marks dlq (j.counts dlq) true) n l) = true ∨
      Before (fun l => l.any (RawRecord.raises n))
        (fun l => l.any (RawRecord.marks dlq (j.counts dlq) true)) ls := by
  rcases h with ⟨before, r, after, heq, hoffer⟩
  rcases JobFacts.offer_cases hoffer dlq with hfull | ⟨hmarks, hepoch⟩
  · rcases List.mem_flatten.mp (heq ▸ List.mem_append_right before List.mem_cons_self) with
      ⟨l, hl, hr⟩
    exact Or.inl (List.any_eq_true.mpr ⟨l, hl, Bool.or_eq_true_iff.mpr
      (Or.inl (List.any_eq_true.mpr ⟨r, hr, copied_iff.mpr ⟨j, hfull, rfl, hn⟩⟩))⟩)
  · have hstamped := JobFacts.stamped_iff.mpr ⟨before, r, after, heq, hmarks, hepoch ▸ hn⟩
    refine (JobFacts.stamped_flatten.mp hstamped).imp (fun ⟨l, hl, h⟩ => ?_) id
    exact List.any_eq_true.mpr ⟨l, hl, Bool.or_eq_true_iff.mpr (Or.inr h)⟩

theorem source_of_copyFirst {l before after : List RawRecord} {r : RawRecord}
    (h : CopyFirst l = true)
    (hl : l = before ++ r :: after) (hr : r.parks = true) : before.any RawRecord.source = true := by
  by_contra hnone
  have hall : ∀ r' ∈ before, (!r'.source) = true := by simpa using hnone
  have hpark : (!r.source) = true := by cases r <;> first | rfl | cases hr
  subst hl
  rw [CopyFirst, List.takeWhile_append_of_pos hall,
    List.takeWhile_cons_of_pos (p := fun r : RawRecord => !r.source) hpark, List.all_append,
    List.all_cons, hr] at h
  simp at h

/-- And the other way round, for the parkings of logs in which they are behind a copy. -/
theorem offered_below (h : (ls.any fun l => l.any (RawRecord.copied dlq side n) ||
        JobFacts.stamped (RawRecord.marks dlq side (CopyFirst l)) n l) = true ∨
      Before (fun l => l.any (RawRecord.raises n))
        (fun l => l.any (RawRecord.marks dlq side (CopyFirst l))) ls) :
    ∃ j, JobFacts.Offered ls.flatten j ∧ j.counts dlq = side ∧ n ≤ j.epoch.toNat := by
  -- A record of a log, with what was read before it.
  have hmarked : ∀ ls₁ l ls₂ u r v, ls = ls₁ ++ l :: ls₂ → l = u ++ r :: v →
      r.marks dlq side (CopyFirst l) = true →
      n ≤ max ((ls₁.flatten ++ u).foldl JobFacts.fold {}).maxEpoch.toNat r.epoch.toNat →
      ∃ j, JobFacts.Offered ls.flatten j ∧ j.counts dlq = side ∧ n ≤ j.epoch.toNat := by
    intro ls₁ l ls₂ u r v hls hl hmarks hle
    have hcopy : CopyFirst l = true → r.parks = true →
        ((ls₁.flatten ++ u).foldl JobFacts.fold {}).haveCopy = true := by
      intro hbehind hparks
      rw [JobFacts.haveCopy_eq, List.any_append, source_of_copyFirst hbehind hl hparks,
        Bool.or_true]
    rcases JobFacts.offer_of_marks hmarks hcopy with ⟨j, hoffer, hcounts, hepoch⟩
    refine ⟨j, ⟨ls₁.flatten ++ u, r, v ++ ls₂.flatten, ?_, hoffer⟩, hcounts, hepoch ▸ hle⟩
    rw [hls, hl]
    simp
  rcases h with h | h
  · rcases List.any_eq_true.mp h with ⟨l, hl, h⟩
    rcases List.append_of_mem hl with ⟨ls₁, ls₂, hls⟩
    rcases Bool.or_eq_true_iff.mp h with hcopied | hstamped
    · rcases List.any_eq_true.mp hcopied with ⟨r, hr, hcopied⟩
      rcases List.append_of_mem (List.mem_flatten.mpr ⟨l, hl, hr⟩) with ⟨before, after, heq⟩
      rcases copied_iff.mp hcopied with ⟨j, hj, hcounts⟩
      exact ⟨j, ⟨before, r, after, heq, JobFacts.offer_of_full hj _⟩, hcounts⟩
    · rcases JobFacts.stamped_iff.mp hstamped with ⟨u, r, v, hl', hmarks, hle⟩
      refine hmarked ls₁ l ls₂ u r v hls hl' hmarks (hle.trans ?_)
      refine max_le_max ?_ (le_refl _)
      rw [JobFacts.le_maxEpoch, List.any_append, Bool.or_eq_true]
      exact ((JobFacts.le_maxEpoch u).mp (le_refl _)).imp id Or.inr
  · rcases before_iff.mp h with ⟨ls₁, l, ls₂, hls, hl, l', hl', hraises⟩
    rcases List.any_eq_true.mp hl with ⟨r, hr, hmarks⟩
    rcases List.append_of_mem hr with ⟨u, v, hl'⟩
    refine hmarked ls₁ l ls₂ u r v hls hl' hmarks (le_max_of_le_left ?_)
    rw [JobFacts.le_maxEpoch, List.any_append, List.any_flatten, Bool.or_eq_true]
    exact Or.inr (Or.inl (List.any_eq_true.mpr ⟨l', ‹_›, hraises⟩))

/-- Where the side wins with the parkings it can rely on, against all others, the merged copy
    counts. -/
theorem counts_of_wins (hperm : ls.Perm ls') (hsource : ls.flatten.any RawRecord.source = true)
    (h : (contest dlq ls CopyFirst fun _ => true).Wins ls') :
    (ls'.flatten.foldl JobFacts.fold {}).merged.counts dlq = true := by
  rcases JobFacts.merged_offered ls'.flatten with ⟨hnone, -⟩ | ⟨-, hoffered, hbest⟩
  · rw [JobFacts.haveCopy_eq, ← hperm.flatten.any_eq, hsource] at hnone
    cases hnone
  · by_contra hcounts
    rw [Bool.not_eq_true] at hcounts
    have habove := offered_above dlq hoffered (le_refl _)
    have hbound := epoch_le_of_offered hoffered
    rw [hcounts, ← hperm.any_eq] at habove
    have hwe := h _ (hbound.trans (le_of_eq (topEpoch_perm hperm))) habove
    simp only [contest, hperm.any_eq] at hwe
    -- A copy that counts is at least as good as the merged one.
    rcases offered_below hwe with ⟨j, hj, hjcounts, hle⟩
    have hmark := (mark_le_iff dlq _ _).mp (hbest j hj dlq)
    rw [hjcounts, hcounts] at hmark
    rcases hmark with hlt | ⟨-, hfalse⟩
    · omega
    · exact absurd hfalse (by decide)

/-- Where the merged copy counts, the side wins with all of its parkings, against those that the
    others can rely on. -/
theorem wins_of_counts (hperm : ls.Perm ls')
    (h : (ls'.flatten.foldl JobFacts.fold {}).merged.counts dlq = true) :
    (contest dlq ls (fun _ => true) CopyFirst).Wins ls' := by
  intro n _ hthey
  simp only [contest, hperm.any_eq] at hthey ⊢
  rcases offered_below hthey with ⟨j, hj, hcounts, hle⟩
  rcases JobFacts.merged_offered ls'.flatten with ⟨-, -, hnone⟩ | ⟨-, hoffered, hbest⟩
  · exact absurd hj (hnone j)
  · have hmark := (mark_le_iff dlq _ _).mp (hbest j hj dlq)
    have habove := offered_above dlq (n := n) hoffered (by omega)
    rw [h] at habove
    exact habove

/-- The order of the logs does not matter to a job, given the records of it: there is no copy of it,
    or one side wins in any order. -/
def Concluded (dlq : Bool) (ls : List (List RawRecord)) : Prop :=
  ls.flatten.any RawRecord.source = false ∨ (contest dlq ls CopyFirst fun _ => true).Always ls ∨
    (contest dlq ls (fun _ => true) CopyFirst).Never ls

instance : Decidable (Concluded dlq ls) :=
  inferInstanceAs (Decidable (_ ∨ _ ∨ _))

/-- Whether the merged copy counts, in any order of logs that settle it. -/
theorem counts_perm (h : Concluded dlq ls) (hperm : ls.Perm ls') :
    (ls.flatten.foldl JobFacts.fold {}).merged.counts dlq =
      (ls'.flatten.foldl JobFacts.fold {}).merged.counts dlq := by
  by_cases hsource : ls.flatten.any RawRecord.source = true
  · rcases h with hnone | halways | hnever
    · rw [hnone] at hsource
      cases hsource
    · have hwins := (Contest.always_iff _ ls).mpr halways
      rw [counts_of_wins (List.Perm.refl ls) hsource (hwins ls (List.Perm.refl ls)),
        counts_of_wins hperm hsource (hwins ls' hperm)]
    · have hlost : ∀ ls'', ls.Perm ls'' →
          (ls''.flatten.foldl JobFacts.fold {}).merged.counts dlq = false := by
        intro ls'' hperm''
        by_contra hcounts
        rw [Bool.not_eq_false] at hcounts
        exact (Contest.never_iff _ ls).mpr hnever ls'' hperm'' (wins_of_counts hperm'' hcounts)
      rw [hlost ls (List.Perm.refl ls), hlost ls' hperm]
  · -- Nothing was ever offered.
    have hinit : ∀ ls'', ls.Perm ls'' →
        (ls''.flatten.foldl JobFacts.fold {}).merged = RawJob.initial := by
      intro ls'' hperm''
      rcases JobFacts.merged_offered ls''.flatten with ⟨-, hinit, -⟩ | ⟨hcopy, -⟩
      · exact hinit
      · rw [JobFacts.haveCopy_eq, ← hperm''.flatten.any_eq] at hcopy
        exact absurd hcopy hsource
    rw [hinit ls (List.Perm.refl ls), hinit ls' hperm]

/-- With all parkings behind copies, both sides can rely on all. -/
theorem wins_iff_of_copyFirst (h : ∀ l ∈ ls, CopyFirst l = true) (hperm : ls.Perm ls') :
    (contest dlq ls CopyFirst fun _ => true).Wins ls' ↔
      (contest dlq ls (fun _ => true) CopyFirst).Wins ls' := by
  have hany : ∀ side n, (ls.any fun l => l.any (RawRecord.copied dlq side n) ||
        JobFacts.stamped (RawRecord.marks dlq side (CopyFirst l)) n l) =
      ls.any fun l => l.any (RawRecord.copied dlq side n) ||
        JobFacts.stamped (RawRecord.marks dlq side true) n l := by
    intro side n
    rw [Bool.eq_iff_iff, List.any_eq_true, List.any_eq_true]
    exact exists_congr fun l => and_congr_right fun hl => by rw [h l hl]
  have hbefore : ∀ side n, Before (fun l : List RawRecord => l.any (RawRecord.raises n))
        (fun l => l.any (RawRecord.marks dlq side (CopyFirst l))) ls' ↔
      Before (fun l => l.any (RawRecord.raises n))
        (fun l => l.any (RawRecord.marks dlq side true)) ls' := by
    intro side n
    have hl : ∀ l ∈ ls', CopyFirst l = true := fun l hl => h l (hperm.mem_iff.mpr hl)
    exact ⟨fun hb => hb.imp (fun _ _ hx => hx) fun l hmem hx => by rwa [hl l hmem] at hx,
      fun hb => hb.imp (fun _ _ hx => hx) fun l hmem hx => by rwa [hl l hmem]⟩
  simp only [Contest.Wins, contest, hany, hbefore]

/-- Where every parking is behind a copy, the order matters to every other job. -/
theorem concluded_of_counts (hbehind : ∀ l ∈ ls, CopyFirst l = true)
    (h : ∀ ls', ls.Perm ls' → (ls.flatten.foldl JobFacts.fold {}).merged.counts dlq =
      (ls'.flatten.foldl JobFacts.fold {}).merged.counts dlq) : Concluded dlq ls := by
  by_cases hsource : ls.flatten.any RawRecord.source = true
  swap
  · exact Or.inl (Bool.eq_false_iff.mpr hsource)
  right
  rcases hcounts : (ls.flatten.foldl JobFacts.fold {}).merged.counts dlq with _ | _
  · right
    refine (Contest.never_iff _ ls).mp fun ls' hperm hwins => ?_
    have hcounts' := counts_of_wins hperm hsource ((wins_iff_of_copyFirst hbehind hperm).mpr hwins)
    rw [← h ls' hperm, hcounts] at hcounts'
    cases hcounts'
  · left
    refine (Contest.always_iff _ ls).mp fun ls' hperm => ?_
    exact (wins_iff_of_copyFirst hbehind hperm).mpr (wins_of_counts hperm (h ls' hperm ▸ hcounts))

end Contest

/-! ### The verdict -/

section Evidence

variable {logs logs' : List (List Bytes)}

/-- The records of a job, by logs. -/
def jobLogs (hex : Bytes) (logs : List (List Bytes)) : List (List RawRecord) :=
  logs.map fun bodies => ofJob hex (recordsOf bodies)

theorem foldLogs_lookup (logs : List (List Bytes)) (hex : Bytes) :
    (foldLogs logs).jobs.lookup hex = if (jobLogs hex logs).flatten = [] then none
      else some ((jobLogs hex logs).flatten.foldl JobFacts.fold {}) := by
  have hflat : ofJob hex (logs.flatMap recordsOf) = (jobLogs hex logs).flatten := by
    rw [ofJob, List.filter_flatMap, List.flatMap_def]
    rfl
  rw [foldLogs_eq, lookup_foldRecords, hflat]
  rfl

/-- Which jobs there are, and their tallies, in any order of the logs. -/
theorem lookup_perm (hperm : logs.Perm logs') (hex : Bytes) :
    ((foldLogs logs).jobs.lookup hex).map JobFacts.tally =
      ((foldLogs logs').jobs.lookup hex).map JobFacts.tally := by
  have hjob : (jobLogs hex logs).flatten.Perm (jobLogs hex logs').flatten := (hperm.map _).flatten
  rw [foldLogs_lookup, foldLogs_lookup]
  by_cases hnil : (jobLogs hex logs).flatten = []
  · rw [if_pos hnil, if_pos (List.nil_perm.mp (hnil ▸ hjob))]
  · have hne : (jobLogs hex logs').flatten ≠ [] := fun h => hnil (List.perm_nil.mp (h ▸ hjob))
    rw [if_neg hnil, if_neg hne, Option.map_some, Option.map_some, tally_perm hjob]

theorem any_of_tally {o o' : Option JobFacts} (h : o.map JobFacts.tally = o'.map JobFacts.tally)
    (p : Finset UInt32 × UInt32 × UInt32 → Bool) :
    o.any (fun f => p f.tally) = o'.any (fun f => p f.tally) := by
  have hmap : ∀ o : Option JobFacts, o.any (fun f => p f.tally) = (o.map JobFacts.tally).any p := by
    intro o
    cases o <;> rfl
  rw [hmap, hmap, h]

theorem retried_perm (hperm : logs.Perm logs') (hex : Bytes) :
    (foldLogs logs).retried hex = (foldLogs logs').retried hex :=
  any_of_tally (lookup_perm hperm hex) (fun t => 1 < t.2.1 || 1 < t.2.2)

/-- What a record adds to the jobs with a key. -/
def idsStep (key : Bytes) (ids : Finset Bytes) (r : RawRecord) : Finset Bytes :=
  match r.full with
  | none => ids
  | some j => if j.idemKey = key then insert (toHex j.id) ids else ids

instance (key : Bytes) : RightCommutative (idsStep key) where
  right_comm ids r r' := by
    unfold idsStep
    cases r.full with
    | none => rfl
    | some j =>
      cases r'.full with
      | none => rfl
      | some j' =>
        simp only
        split <;> split <;> simp [Finset.insert_comm]

theorem idsOf_foldLogs (logs : List (List Bytes)) (key : Bytes) :
    (foldLogs logs).idsOf key = (logs.map recordsOf).flatten.foldl (idsStep key) ∅ := by
  rw [foldLogs_eq, List.flatMap_def]
  generalize (logs.map recordsOf).flatten = rs
  induction rs using List.reverseRecOn with
  | nil => rfl
  | append_singleton rs r ih =>
    rw [List.foldl_append, List.foldl_append, ← ih]
    exact idsOf_foldRecord _ key r

theorem idsOf_perm (hperm : logs.Perm logs') (key : Bytes) :
    (foldLogs logs).idsOf key = (foldLogs logs').idsOf key := by
  rw [idsOf_foldLogs, idsOf_foldLogs, ((hperm.map recordsOf).flatten).foldl_eq]

/-- Counting entries is counting keys by what is found under them. -/
theorem countP_entries {α β : Type} [DecidableEq α] (m : AList (fun _ : α => β)) (p : β → Bool) :
    m.entries.countP (fun x => p x.2) = m.keys.countP (fun k => (m.lookup k).any p) := by
  rw [AList.keys, List.keys, List.countP_map]
  refine List.countP_congr (fun x hx => ?_)
  have hlookup : m.lookup x.1 = some x.2 := AList.mem_lookup_iff.mpr hx
  rw [Function.comp, hlookup]
  rfl

theorem keys_perm (hperm : logs.Perm logs') :
    (foldLogs logs).jobs.keys.Perm (foldLogs logs').jobs.keys := by
  refine (List.perm_ext_iff_of_nodup (AList.keys_nodup _) (AList.keys_nodup _)).mpr (fun hex => ?_)
  rw [← AList.mem_keys, ← AList.mem_keys, ← AList.lookup_isSome, ← AList.lookup_isSome]
  have hlookup := congrArg Option.isSome (lookup_perm hperm hex)
  rw [Option.isSome_map, Option.isSome_map] at hlookup
  rw [hlookup]

/-- The number of jobs that were completed twice, in any order of the logs. -/
theorem doubleDone_perm (hperm : logs.Perm logs') :
    (foldLogs logs).jobs.entries.countP (fun f => 1 < f.2.doneSeqs.card) =
      (foldLogs logs').jobs.entries.countP (fun f => 1 < f.2.doneSeqs.card) := by
  rw [countP_entries _ (fun f : JobFacts => decide (1 < f.doneSeqs.card)),
    countP_entries _ (fun f : JobFacts => decide (1 < f.doneSeqs.card)),
    (keys_perm hperm).countP_eq]
  refine List.countP_congr (fun hex _ => ?_)
  exact Bool.eq_iff_iff.mp (any_of_tally (lookup_perm hperm hex) (fun t => 1 < t.1.card))

/-- A job with this id is not lost. -/
def Evidence.counted (e : Evidence) (dlq : Bool) (hex : Bytes) : Bool :=
  (e.jobs.lookup hex).any fun f => f.merged.counts dlq

theorem counted_eq (e : Evidence) (dlq : Bool) (hex : Bytes) :
    (!e.inState hex .done && !(dlq && e.inState hex .deadLetter)) = !e.counted dlq hex := by
  unfold Evidence.inState Evidence.counted
  cases e.jobs.lookup hex with
  | none => simp
  | some f => simp [RawJob.counts, RawJob.isDone, RawJob.isDead]

theorem counted_foldLogs (dlq : Bool) (logs : List (List Bytes)) (hex : Bytes) :
    (foldLogs logs).counted dlq hex =
      ((jobLogs hex logs).flatten.foldl JobFacts.fold {}).merged.counts dlq := by
  rw [Evidence.counted, foldLogs_lookup]
  by_cases hnil : (jobLogs hex logs).flatten = []
  · rw [if_pos hnil, hnil]
    cases dlq <;> rfl
  · rw [if_neg hnil]
    rfl

/-- Something holds of the records of every job in the logs. -/
def EveryJob (P : List (List RawRecord) → Prop) (logs : List (List Bytes)) : Prop :=
  ∀ r ∈ logs.flatMap recordsOf, ∀ id : RawId, id ∈ r.about → P (jobLogs (toHex id) logs)

instance (P : List (List RawRecord) → Prop) [DecidablePred P] : Decidable (EveryJob P logs) :=
  inferInstanceAs (Decidable (∀ r ∈ logs.flatMap recordsOf, ∀ id ∈ r.about, P _))

/-- The order of the logs does not matter to any job. -/
def Decided (dlq : Bool) : List (List Bytes) → Prop :=
  EveryJob (Concluded dlq)

instance (dlq : Bool) : Decidable (Decided dlq logs) :=
  inferInstanceAs (Decidable (EveryJob _ logs))

/-- Every parking is behind a copy of its job in its own log. -/
def ParkedBehind : List (List Bytes) → Prop :=
  EveryJob fun ls => ∀ l ∈ ls, CopyFirst l = true

instance : Decidable (ParkedBehind logs) :=
  inferInstanceAs (Decidable (EveryJob _ logs))

/-- Whether a job is lost, in any order of the logs. -/
theorem counted_perm {dlq : Bool} (hdecided : Decided dlq logs) (hperm : logs.Perm logs')
    (hex : Bytes) : (foldLogs logs).counted dlq hex = (foldLogs logs').counted dlq hex := by
  rw [counted_foldLogs, counted_foldLogs]
  rcases hrs : (jobLogs hex logs).flatten with _ | ⟨r, rs⟩
  · have hnil := List.nil_perm.mp (hrs ▸ (hperm.map fun b => ofJob hex (recordsOf b)).flatten)
    rw [show (jobLogs hex logs').flatten = [] from hnil]
  · rw [← hrs]
    rcases List.mem_flatten.mp (hrs ▸ List.mem_cons_self : r ∈ (jobLogs hex logs).flatten) with
      ⟨l, hl, hr⟩
    rcases List.mem_map.mp hl with ⟨bodies, hbodies, rfl⟩
    rcases List.mem_filter.mp hr with ⟨hmem, habout⟩
    rcases Option.map_eq_some_iff.mp (of_decide_eq_true habout) with ⟨id, hid, rfl⟩
    exact counts_perm (hdecided r (List.mem_flatMap.mpr ⟨bodies, hbodies, hmem⟩) id hid)
      (hperm.map _)

theorem lost_eq (dlq : Bool) (submits : List SubmitLine) (receipts : List Bytes)
    (logs : List (List Bytes)) : (verify dlq submits receipts logs).lost =
      (acceptedOf submits).entries.countP fun a => !(foldLogs logs).counted dlq a.2 := by
  simp only [verify, Evidence.judge, counted_eq]

theorem unexplained_perm (hperm : logs.Perm logs') (dlq : Bool) (submits : List SubmitLine)
    (receipts : List Bytes) : (verify dlq submits receipts logs).unexplained =
      (verify dlq submits receipts logs').unexplained := by
  have hretried : (foldLogs logs).retried = (foldLogs logs').retried := funext (retried_perm hperm)
  have htwin : (foldLogs logs).twin = (foldLogs logs').twin :=
    funext fun key => by rw [Evidence.twin, Evidence.twin, idsOf_perm hperm]
  simp only [verify, Evidence.judge, hretried, htwin]

end Evidence

/-- The completions and the duplicates are judged alike in any order of the logs. -/
theorem counts_in_any_order (allowDlq : Bool) (submits : List SubmitLine) (receipts : List Bytes)
    {logs logs' : List (List Bytes)} (hperm : logs.Perm logs') :
    (verify allowDlq submits receipts logs).doubleDone =
        (verify allowDlq submits receipts logs').doubleDone ∧
      (verify allowDlq submits receipts logs).unexplained =
        (verify allowDlq submits receipts logs').unexplained :=
  ⟨doubleDone_perm hperm, unexplained_perm hperm allowDlq submits receipts⟩

/-- Two logs have completions under different leases. -/
theorem counts_in_any_order_leases :
    let log s := [encodeRecord (.done ⟨1, 2⟩ 1 s) 0]
    (verify false [] [] [log 1, log 2]).doubleDone = 1 ∧
      (verify false [] [] [log 2, log 1]).doubleDone = 1 := by
  intro log
  have hone : (verify false [] [] [log 1, log 2]).doubleDone = 1 := by decide +kernel
  exact ⟨hone, (counts_in_any_order false [] [] (.swap _ _ [])).1.trans hone⟩

/-- Two verdicts are the same, with the same counts of lost jobs, of jobs that were completed twice
    and of duplicates without a cause. -/
def Verdict.Agrees (v v' : Verdict) : Prop :=
  v.pass = v'.pass ∧ v.lost = v'.lost ∧ v.doubleDone = v'.doubleDone ∧
    v.unexplained = v'.unexplained

instance (v v' : Verdict) : Decidable (v.Agrees v') :=
  inferInstanceAs (Decidable (_ ∧ _ ∧ _ ∧ _))

end Tautq
