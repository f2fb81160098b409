import Tautq.Lib.Run
import Tautq.Theory.Compact
import Tautq.Theory.JobStore

/-!
# What a Store Recovers

A service is a disk and the job store of the process that runs on it, if one does.
Stores are opened, committed to and compacted, with any fate of every system call a
commit or a compaction makes, and processes are killed.

The running table is the one the log replays to. A commit that failed can have left
its record in the log all the same; the store is stopped then, so there is one such
record at most, the one of the first commit that failed. A compaction replaces the log
by a snapshot of the table, which replays to the same table as long as all records of
a job have one key.

## Main definitions

* `Service`, `Service.Op`, `Service.step`: Stores on a disk.
* `Service.Kept`: The running table is the one the log replays to.
* `JobStore.commitAll`: Commits one after the other.

## Theorems

* `Service.Kept.step`: What one step keeps.
* `replayed_is_running`: A store opened on the disk has the table of the running one, or
  the first refused record as well.
* `compaction_preserves_store`: A compaction and a reopen change no answer, now and after
  further commits.
-/

namespace Tautq

open Proc RawTable

/-- A disk, the store that runs on it, and the record of the first commit that returned false
    since it was opened. -/
structure Service where
  disk : Volume := {}
  store : Option JobStore := none
  refused : Option RawRecord := none

namespace Service

/-- What is done to a store. -/
inductive Op where
  | openStore (segmentBytes : Nat)
  | commit (r : RawRecord) (doSync : Bool) (fates : List Fate)
  | compact (fates : List Fate)
  | kill

variable (crc : Bytes → UInt32)

/-- One step. A store is opened by a new process, and used by the one that opened it. -/
def step (s : Service) : Op → Option Service
  | .openStore segmentBytes =>
    match s.store with
    | some _ => none
    | none =>
      match JobStore.openStore crc segmentBytes s.disk [] with
      | (some (true, st), disk, _) => some { disk, store := some st }
      | (_, disk, _) => some { disk }
  | .commit r doSync fates =>
    match s.store with
    | none => none
    | some st =>
      match st.commit crc r doSync s.disk fates with
      | (some (true, st'), disk, _) => some { s with disk, store := some st' }
      | (some (false, st'), disk, _) =>
        some { disk, store := some st', refused := s.refused.or (some r) }
      | (none, disk, _) => some { disk }
  | .compact fates =>
    match s.store with
    | none => none
    | some st =>
      match st.compact crc s.disk fates with
      | (some (_, st'), disk, _) => some { s with disk, store := some st' }
      | (none, disk, _) => some { disk }
  | .kill => some { disk := s.disk }

/-! ### The invariant -/

/-- What a running store has to do with its disk: it runs on a log that replays to its table, or
    it is stopped and the log replays to its table with or without the refused record. -/
inductive Backed (s : Service) (st : JobStore) (L : List Bytes) : Prop where
  | live (durable : Nat) (h : Live crc false false s.disk st.wal L durable)
      (hrefused : s.refused = none) (hsame : Same st.table (rawReplay L))
  | stopped (hfailed : st.wal.failed = true) (place : Option Name) (durable : Nat)
      (h : AtRest crc false false s.disk place L durable)
      (hsame : Same st.table (rawReplay L) ∨
        ∃ r, s.refused = some r ∧ Same (st.table.apply r) (rawReplay L))

/-- The disk holds a log, and a running store is backed by it. The tables are as `P` says. -/
def Kept (P : RawTable → Prop) (s : Service) : Prop :=
  match s.store with
  | none => ∃ place L durable, AtRest crc false false s.disk place L durable ∧ P (rawReplay L)
  | some st => ∃ L, Backed crc s st L ∧ P (rawReplay L) ∧ P st.table

variable {crc} {P : RawTable → Prop} {s : Service} {st : JobStore} {L : List Bytes}

theorem Backed.atRest (h : Backed crc s st L) :
    ∃ place durable, AtRest crc false false s.disk place L durable := by
  cases h with
  | live durable h => exact ⟨_, durable, h.atRest⟩
  | stopped _ place durable h => exact ⟨place, durable, h⟩

namespace Kept

theorem init (hP : P {}) : Kept crc P {} :=
  ⟨none, [], 0, ⟨⟨rfl, fun _ => rfl⟩, fun _ _ _ hv => List.mem_singleton.mp hv, _, rfl,
    .bare (fun _ _ _ hv => List.mem_singleton.mp hv)⟩, hP⟩

theorem atRest (h : Kept crc P s) :
    ∃ place L durable, AtRest crc false false s.disk place L durable ∧ P (rawReplay L) := by
  unfold Kept at h
  split at h
  · exact h
  · rcases h with ⟨L, hbacked, hP, _⟩
    rcases hbacked.atRest with ⟨place, durable, hrest⟩
    exact ⟨place, L, durable, hrest, hP⟩

end Kept

/-- An open succeeds, with the table the log replays to. -/
theorem openStore_run {disk : Volume} {place : Option Name} {durable : Nat}
    (h : AtRest crc false false disk place L durable) (segmentBytes : Nat) :
    ∃ st disk' fs, JobStore.openStore crc segmentBytes disk [] = (some (true, st), disk', fs) ∧
      st.table = rawReplay L ∧ Live crc false false disk' st.wal L durable := by
  rcases openLog_run h segmentBytes with ⟨w, disk', fs, hrun, hlive⟩
  refine ⟨⟨w, rawReplay L⟩, disk', fs, ?_, rfl, hlive⟩
  simp only [JobStore.openStore, bind, hrun, pure]

/-- A store that is stopped takes no commit. -/
theorem commit_failed (hfailed : st.wal.failed = true) (r : RawRecord) (doSync : Bool) :
    st.commit crc r doSync = pure (false, st) := by
  unfold JobStore.commit
  rw [append_failed hfailed]
  rfl

/-- Nor is it compacted. -/
theorem compact_failed (hfailed : st.wal.failed = true) : st.compact crc = pure (false, st) := by
  unfold JobStore.compact
  rw [show st.wal.compact crc st.table.snapshot = pure (false, st.wal) from
    if_pos (Or.inr (Or.inl hfailed))]
  rfl

/-- How a commit ends: acknowledged and applied, or refused with its record in the log or not, and
    the store stopped. -/
theorem commit_ends {F : Fate → Prop} {disk : Volume} {durable : Nat} {r : RawRecord}
    (h : Live crc false false disk st.wal L durable) (hr : r.fits) (doSync : Bool) :
    ∃ lsn, Ends F (st.commit crc r doSync) disk (fun a disk' =>
      (a.1 = true ∧ a.2.table = st.table.apply r ∧
        ∃ durable, Live crc false false disk' a.2.wal (L ++ [encodeRecord r lsn]) durable) ∨
      (a.1 = false ∧ a.2.table = st.table ∧ a.2.wal.failed = true ∧ ∃ place durable,
        AtRest crc false false disk' place L durable ∨
          AtRest crc false false disk' place (L ++ [encodeRecord r lsn]) durable))
      (fun disk' => ∃ place durable, AtRest crc false false disk' place L durable ∨
        AtRest crc false false disk' place (L ++ [encodeRecord r lsn]) durable) := by
  refine ⟨UInt64.ofNat st.wal.nextLsn, ?_⟩
  refine (append_ends h (framable_encodeRecord hr _) (by simp) doSync).seq
    (fun disk' hk => ⟨_, _, hk.2⟩) (fun a disk' ha => ?_)
  rcases ha with ⟨hok, _, _, hlive⟩ | ⟨hok, hfailed, hrest⟩
  · rw [if_pos hok]
    exact .pure (.inl ⟨rfl, rfl, _, hlive⟩)
  · rw [if_neg (by simp [hok])]
    exact .pure (.inr ⟨rfl, rfl, hfailed, _, _, hrest.imp_right And.right⟩)

/-- How a compaction ends: with the log as it was or with the snapshot, and the store running on it
    or stopped; on the snapshot if it succeeded. -/
theorem compact_store_ends {F : Fate → Prop} {disk : Volume} {durable : Nat}
    (h : Live crc false false disk st.wal L durable) :
    Ends F (st.compact crc) disk (fun a disk' => a.2.table = st.table ∧ ∃ L' durable,
      (L' = L ∧ a.1 = false ∨ L' = st.table.snapshot) ∧
      (Live crc false false disk' a.2.wal L' durable ∨
        (a.1 = false ∧ a.2.wal.failed = true ∧
        ∃ place, AtRest crc false false disk' place L' durable)))
      (fun disk' => ∃ place L' durable, (L' = L ∨ L' = st.table.snapshot) ∧
        AtRest crc false false disk' place L' durable) := by
  refine (compact_ends h st.table.snapshot).seq (fun disk' hk => ?_)
    (fun a disk' ha => .pure ⟨rfl, ?_⟩)
  · rcases hk with hrest | ⟨dir, hbetween | hrest⟩
    · exact ⟨_, L, _, .inl rfl, hrest⟩
    · exact ⟨_, _, _, .inr rfl, hbetween.now.atRest.weaken⟩
    · exact ⟨_, _, _, .inr rfl, hrest.weaken⟩
  · rcases ha with ⟨rfl, rfl⟩ | ⟨rfl, hrest⟩ | ⟨rfl, hlive⟩ | ⟨dir, hafter⟩
    · exact ⟨L, _, .inl ⟨rfl, rfl⟩, .inl h⟩
    · exact ⟨L, _, .inl ⟨rfl, rfl⟩, .inr ⟨rfl, rfl, _, hrest⟩⟩
    · exact ⟨L, _, .inl ⟨rfl, rfl⟩, .inl hlive⟩
    · rcases hafter with ⟨hok, hfailed, hbetween⟩ | ⟨_, _, hlive⟩ | ⟨hok, hfailed, hrest⟩
      · exact ⟨_, _, .inr rfl, .inr ⟨hok, hfailed, _, hbetween.now.atRest.weaken⟩⟩
      · exact ⟨_, _, .inr rfl, .inl hlive.weaken⟩
      · exact ⟨_, _, .inr rfl, .inr ⟨hok, hfailed, _, hrest.weaken⟩⟩

namespace Kept

theorem openStore {s' : Service} (h : Kept crc P s) {segmentBytes : Nat}
    (hstep : Service.step crc s (.openStore segmentBytes) = some s') : Kept crc P s' := by
  cases hst : s.store with
  | some st => simp [Service.step, hst] at hstep
  | none =>
    rcases h.atRest with ⟨place, L, durable, hrest, hP⟩
    rcases openStore_run hrest segmentBytes with ⟨st, disk, fs, hrun, htable, hlive⟩
    simp only [Service.step, hst, hrun, Option.some.injEq] at hstep
    subst hstep
    exact ⟨L, .live durable hlive rfl (htable ▸ .refl _), hP, htable ▸ hP⟩

theorem commit {s' : Service} (h : Kept crc P s) {r : RawRecord} (hr : r.fits)
    (hP : ∀ t, P t → P (t.apply r)) {doSync : Bool} {fates : List Fate}
    (hstep : Service.step crc s (.commit r doSync fates) = some s') :
    Kept crc P s' := by
  cases hst : s.store with
  | none => simp [Service.step, hst] at hstep
  | some st =>
    unfold Kept at h
    rw [hst] at h
    rcases h with ⟨L, hbacked, hlog, htable⟩
    simp only [Service.step, hst] at hstep
    cases hbacked with
    | stopped hfailed place durable hrest hsame =>
      rw [commit_failed hfailed] at hstep
      cases hstep
      refine ⟨L, .stopped hfailed place durable hrest ?_, hlog, htable⟩
      -- The first refused record stays the first.
      exact hsame.imp_right (fun ⟨r', hr', hsame⟩ => ⟨r', by simp [hr'], hsame⟩)
    | live durable hlive hrefused hsame =>
      rcases commit_ends (F := fun _ => True) hlive hr doSync with ⟨lsn, hends⟩
      have hnew : rawReplay (L ++ [encodeRecord r lsn]) = (rawReplay L).apply r :=
        rawReplay_snoc hr L lsn
      have hPnew : P (rawReplay (L ++ [encodeRecord r lsn])) := hnew ▸ hP _ hlog
      generalize hrun : st.commit crc r doSync s.disk fates = out at hstep
      rcases out with ⟨o, disk, fs⟩
      rcases hends fates (fun _ _ => trivial) o disk fs hrun with ⟨_, hpost⟩
      cases o with
      | none =>
        cases hstep
        rcases hpost with ⟨place, durable, hrest | hrest⟩
        · exact ⟨place, L, durable, hrest, hlog⟩
        · exact ⟨place, _, durable, hrest, hPnew⟩
      | some a =>
        rcases a with ⟨ok, st'⟩
        rcases hpost with ⟨hok, ht, d, hlive'⟩ | ⟨hok, ht, hfailed, place, d, hrest⟩
        · cases hok
          cases hstep
          refine ⟨_, .live d hlive' hrefused ?_, hPnew, ht ▸ hP _ htable⟩
          rw [ht, hnew]
          exact hsame.apply r
        · cases hok
          cases hstep
          rcases hrest with hrest | hrest
          · exact ⟨L, .stopped hfailed place d hrest (.inl (ht ▸ hsame)), hlog, ht ▸ htable⟩
          · refine ⟨_, .stopped hfailed place d hrest (.inr ⟨r, by rw [hrefused]; rfl, ?_⟩), hPnew,
              ht ▸ htable⟩
            rw [ht, hnew]
            exact hsame.apply r

theorem compact {s' : Service} (h : Kept crc P s) (hP : ∀ {t t'}, P t → Same t t' → P t')
    (hsnap : ∀ t, P t → Same (rawReplay t.snapshot) t) {fates : List Fate}
    (hstep : Service.step crc s (.compact fates) = some s') : Kept crc P s' := by
  cases hst : s.store with
  | none => simp [Service.step, hst] at hstep
  | some st =>
    unfold Kept at h
    rw [hst] at h
    rcases h with ⟨L, hbacked, hlog, htable⟩
    simp only [Service.step, hst] at hstep
    have hsnapshot := hsnap _ htable
    cases hbacked with
    | stopped hfailed place durable hrest hsame =>
      rw [compact_failed hfailed] at hstep
      cases hstep
      exact ⟨L, .stopped hfailed place durable hrest hsame, hlog, htable⟩
    | live durable hlive hrefused hsame =>
      have hends := compact_store_ends (F := fun _ => True) hlive
      generalize hrun : st.compact crc s.disk fates = out at hstep
      rcases out with ⟨o, disk, fs⟩
      rcases hends fates (fun _ _ => trivial) o disk fs hrun with ⟨_, hpost⟩
      -- The log, or the snapshot, replays to the running table.
      have hlogs : ∀ {L'}, L' = L ∨ L' = st.table.snapshot → P (rawReplay L') ∧
          Same st.table (rawReplay L') := by
        rintro L' (rfl | rfl)
        · exact ⟨hlog, hsame⟩
        · exact ⟨hP htable hsnapshot.symm, hsnapshot.symm⟩
      cases o with
      | none =>
        cases hstep
        rcases hpost with ⟨place, L', durable, hL', hrest⟩
        exact ⟨place, L', durable, hrest, (hlogs hL').1⟩
      | some a =>
        rcases a with ⟨ok, st'⟩
        rcases hpost with ⟨ht, L', d, hL', hends'⟩
        cases hstep
        have hL := hlogs (hL'.imp_left And.left)
        refine ⟨L', ?_, hL.1, ht ▸ htable⟩
        rcases hends' with hlive' | ⟨_, hfailed, place, hrest⟩
        · exact .live d hlive' hrefused (ht ▸ hL.2)
        · exact .stopped hfailed place d hrest (.inl (ht ▸ hL.2))

theorem kill (h : Kept crc P s) : Kept crc P { disk := s.disk } :=
  h.atRest

end Kept

/-! ### Recovery -/

/-- Commits within the limits, and no compactions. -/
def Op.commits : Op → Prop
  | .commit r _ _ => r.fits
  | .compact _ => False
  | _ => True

/-- Commits within the limits, with one key for all records of a job. -/
def Op.keyed (key : RawId → Bytes) : Op → Prop
  | .commit r _ _ => r.fits ∧ ∀ j, r.full = some j → j.idemKey = key j.id
  | _ => True

theorem kept_of_commits {ops : List Op} (hops : ∀ op ∈ ops, op.commits)
    (hrun : Run.exec (step crc) {} ops = some s) : Kept crc (fun _ => True) s := by
  have hstep : ∀ (s : Service) (op : Op) (s' : Service), Kept crc (fun _ => True) s → op.commits →
      step crc s op = some s' → Kept crc (fun _ => True) s' := by
    intro s op s' h hop hstep
    cases op with
    | openStore => exact h.openStore hstep
    | commit => exact h.commit hop (fun _ _ => trivial) hstep
    | compact => exact hop.elim
    | kill =>
      cases hstep
      exact h.kill
  exact Run.exec_invariant {} (Kept.init trivial) hstep ops s hrun
    (Run.meets_of_forall _ ops (fun op hop _ => hops op hop))

theorem kept_of_keyed {key : RawId → Bytes} {ops : List Op} (hops : ∀ op ∈ ops, op.keyed key)
    (hrun : Run.exec (step crc) {} ops = some s) : Kept crc (RawTable.Sound key) s := by
  have hstep : ∀ (s : Service) (op : Op) (s' : Service), Kept crc (RawTable.Sound key) s →
      op.keyed key → step crc s op = some s' → Kept crc (RawTable.Sound key) s' := by
    intro s op s' h hop hstep
    cases op with
    | openStore => exact h.openStore hstep
    | commit => exact h.commit hop.1 (fun _ ht => ht.apply hop.1 hop.2) hstep
    | compact => exact h.compact RawTable.Sound.congr (fun _ ht => ht.snapshot) hstep
    | kill =>
      cases hstep
      exact h.kill
  exact Run.exec_invariant {} (Kept.init (RawTable.Sound.empty key)) hstep ops s hrun
    (Run.meets_of_forall _ ops (fun op hop _ => hops op hop))

end Service

/-- Whatever is committed within the limits and however the log fails, a store opened on the disk
    has the table and the index of the running one, or those after the record of the first commit
    that returned false; and after such a commit none returns true. -/
theorem replayed_is_running (crc : Bytes → UInt32) (ops : List Service.Op)
    (hops : ∀ op ∈ ops, op.commits)
    {s : Service} (hrun : Run.exec (Service.step crc) {} ops = some s) {st : JobStore}
    (hst : s.store = some st) :
    (∀ segmentBytes, ∃ st' disk fs,
      JobStore.openStore crc segmentBytes s.disk [] = (some (true, st'), disk, fs) ∧
        (Same st'.table st.table ∨ ∃ r, s.refused = some r ∧ Same st'.table (st.table.apply r))) ∧
    (s.refused ≠ none → ∀ r doSync fates,
      st.commit crc r doSync s.disk fates = (some (false, st), s.disk, fates)) := by
  have hkept := Service.kept_of_commits hops hrun
  unfold Service.Kept at hkept
  rw [hst] at hkept
  rcases hkept with ⟨L, hbacked, _⟩
  constructor
  · intro segmentBytes
    rcases hbacked.atRest with ⟨place, durable, hrest⟩
    rcases Service.openStore_run hrest segmentBytes with ⟨st', disk, fs, hopen, htable, _⟩
    refine ⟨st', disk, fs, hopen, ?_⟩
    rw [htable]
    cases hbacked with
    | live _ _ _ hsame => exact .inl hsame.symm
    | stopped _ _ _ _ hsame =>
      rcases hsame with hsame | ⟨r, hr, hsame⟩
      · exact .inl hsame.symm
      · exact .inr ⟨r, hr, hsame.symm⟩
  · intro hrefused r doSync fates
    cases hbacked with
    | live _ _ hnone => exact absurd hnone hrefused
    | stopped hfailed =>
      rw [Service.commit_failed hfailed]
      rfl

/-- The sync of a lease record fails. The running store has the job as it was, and a store that is
    opened on the disk has the lease as well. -/
theorem replayed_is_running_refused :
    let crc : Bytes → UInt32 := fun b => UInt32.ofNat b.length
    let j : RawJob := { (default : RawJob) with idemKey := [1], state := 1, epoch := 1 }
    let ops : List Service.Op := [.openStore 4096, .commit (.submit j) true [],
      .commit (.lease j.id 1 1 7) true [.ok, .fail]]
    ∃ s st st' disk fs, Run.exec (Service.step crc) {} ops = some s ∧ s.store = some st ∧
      s.refused = some (.lease j.id 1 1 7) ∧ st.table.find j.id = some j ∧
      JobStore.openStore crc 4096 s.disk [] = (some (true, st'), disk, fs) ∧
      (Same st'.table st.table ∨ ∃ r, s.refused = some r ∧ Same st'.table (st.table.apply r)) := by
  intro crc j ops
  have hrun : (Run.exec (Service.step crc) {} ops).any (fun s => s.store.any (fun st =>
      decide (s.refused = some (.lease j.id 1 1 7) ∧ st.table.find j.id = some j))) = true := by
    decide +kernel
  rcases (Option.any_eq_true _ _).mp hrun with ⟨s, hs, hstore⟩
  rcases (Option.any_eq_true _ _).mp hstore with ⟨st, hst, hshow⟩
  rcases of_decide_eq_true hshow with ⟨hrefused, hfind⟩
  have hops : ∀ op ∈ ops, op.commits := by
    intro op hop
    rcases List.mem_cons.mp hop with rfl | hop
    · exact trivial
    rcases List.mem_cons.mp hop with rfl | hop
    · exact (by decide : (RawRecord.submit j).fits)
    · rw [List.mem_singleton.mp hop]
      exact trivial
  rcases (replayed_is_running crc ops hops hs hst).1 4096 with ⟨st', disk, fs, hopen, hsame⟩
  exact ⟨s, st, st', disk, fs, hs, hst, hrefused, hfind, hopen, hsame⟩

namespace JobStore

variable (crc : Bytes → UInt32)

/-- Commits one after the other, with what each returned. -/
def commitAll (s : JobStore) : List (RawRecord × Bool) → Proc Volume (List Bool × JobStore)
  | [] => pure ([], s)
  | (r, doSync) :: rest => do
      let a ← s.commit crc r doSync
      let b ← a.2.commitAll rest
      pure (a.1 :: b.1, b.2)

/-- The records that were acknowledged. -/
def acknowledged (cs : List (RawRecord × Bool)) (oks : List Bool) : List RawRecord :=
  ((cs.zip oks).filter (·.2)).map (·.1.1)

/-- Commits that return have applied the acknowledged records. -/
theorem commitAll_table (st : JobStore) (cs : List (RawRecord × Bool)) (disk : Volume) :
    Ends (fun _ => True) (st.commitAll crc cs) disk
      (fun a _ => a.2.table = (acknowledged cs a.1).foldl RawTable.apply st.table)
      (fun _ => True) := by
  induction cs generalizing st disk with
  | nil => exact .pure rfl
  | cons c rest ih =>
    rcases c with ⟨r, doSync⟩
    have hcommit : Ends (fun _ => True) (st.commit crc r doSync) disk
        (fun a _ => a.2.table = if a.1 then st.table.apply r else st.table) (fun _ => True) :=
      (Ends.any _ disk).bind (fun a disk' _ => .ite (fun _ => .pure rfl) (fun _ => .pure rfl))
    refine hcommit.bind (fun a disk₁ ha => (ih a.2 disk₁).bind (fun b disk₂ hb => .pure ?_))
    rw [hb, ha]
    cases a.1 with
    | true => rfl
    | false => rfl

end JobStore

/-- Two stores, each on its disk, answer alike, now and after the same commits with the same
    results. -/
def Alike (crc : Bytes → UInt32) (disk : Volume) (st : JobStore) (disk' : Volume) (st' : JobStore) :
    Prop :=
  Same st.table st'.table ∧ (∀ key, st.table.findByIdem key = st'.table.findByIdem key) ∧
    ∀ cs oks fates fates' a a' rest rest', st.commitAll crc cs disk fates = (some (oks, a), rest) →
      st'.commitAll crc cs disk' fates' = (some (oks, a'), rest') → Same a.table a'.table

theorem alike_of_same (crc : Bytes → UInt32) {disk disk' : Volume} {st st' : JobStore}
    (h : Same st.table st'.table) : Alike crc disk st disk' st' := by
  refine ⟨h, h.findByIdem, fun cs oks fates fates' a a' rest rest' hrun hrun' => ?_⟩
  have hpost := (JobStore.commitAll_table crc st cs disk fates (fun _ _ => trivial) _ _ _ hrun).2
  have hpost' :=
    (JobStore.commitAll_table crc st' cs disk' fates' (fun _ _ => trivial) _ _ _ hrun').2
  rw [show a.table = _ from hpost, show a'.table = _ from hpost']
  exact h.foldl _

/-- Whatever is committed within the limits with one key for all records of a job, after a
    compaction that returned true the running store and one that is opened on the disk answer as
    the store before it did, and go on doing so. -/
theorem compaction_preserves_store (crc : Bytes → UInt32) (key : RawId → Bytes)
    (ops : List Service.Op) (hops : ∀ op ∈ ops, op.keyed key) {s : Service}
    (hrun : Run.exec (Service.step crc) {} ops = some s)
    {st : JobStore} (hst : s.store = some st) {fates fs : List Fate} {st' : JobStore}
    {disk' : Volume} (hcompact : st.compact crc s.disk fates = (some (true, st'), disk', fs)) :
    Alike crc disk' st' s.disk st ∧
    ∀ segmentBytes, ∃ st'' disk'' fs',
      JobStore.openStore crc segmentBytes disk' [] = (some (true, st''), disk'', fs') ∧
        Alike crc disk'' st'' s.disk st := by
  have hkept := Service.kept_of_keyed hops hrun
  unfold Service.Kept at hkept
  rw [hst] at hkept
  rcases hkept with ⟨L, hbacked, _, hsound⟩
  cases hbacked with
  | stopped hfailed =>
    -- A stopped store is not compacted.
    rw [Service.compact_failed hfailed] at hcompact
    cases hcompact
  | live durable hlive _ _ =>
    rcases (Service.compact_store_ends hlive fates (fun _ _ => trivial) _ _ _ hcompact).2 with
      ⟨htable, L', d, hL', hends⟩
    have hsnap : L' = st.table.snapshot := hL'.resolve_left (fun h => nomatch h.2)
    have hrest : ∃ place, AtRest crc false false disk' place L' d := by
      rcases hends with hlive' | ⟨hok, _⟩
      · exact ⟨_, hlive'.atRest⟩
      · cases hok
    rcases hrest with ⟨place, hrest⟩
    refine ⟨alike_of_same crc (htable ▸ .refl _), fun segmentBytes => ?_⟩
    rcases Service.openStore_run hrest segmentBytes with ⟨st'', disk'', fs', hopen, ht, _⟩
    refine ⟨st'', disk'', fs', hopen, alike_of_same crc ?_⟩
    rw [ht, hsnap]
    exact hsound.snapshot

/-- Two jobs with one key, the first of them replicated again so that the index names it. -/
theorem compaction_preserves_store_duplicate :
    let crc : Bytes → UInt32 := fun b => UInt32.ofNat b.length
    let j : RawJob := { (default : RawJob) with idemKey := [1], state := 1, epoch := 1 }
    let j' : RawJob := { j with id := ⟨0, 1⟩ }
    let ops : List Service.Op :=
      [.openStore 4096, .commit (.submit j) true [], .commit (.submit j') true [],
      .commit (.replicate j) true []]
    ∃ s st st' disk' fs, Run.exec (Service.step crc) {} ops = some s ∧ s.store = some st ∧
      st.compact crc s.disk [] = (some (true, st'), disk', fs) ∧ st.table.findByIdem [1] = some j ∧
      ∃ st'' disk'' fs', JobStore.openStore crc 64 disk' [] = (some (true, st''), disk'', fs') ∧
        Alike crc disk'' st'' s.disk st := by
  intro crc j j' ops
  have hrun : (Run.exec (Service.step crc) {} ops).any (fun s => s.store.any (fun st =>
      decide (((st.compact crc s.disk []).1.map Prod.fst) = some true ∧
        st.table.findByIdem [1] = some j))) = true := by
    decide +kernel
  rcases (Option.any_eq_true _ _).mp hrun with ⟨s, hs, hstore⟩
  rcases (Option.any_eq_true _ _).mp hstore with ⟨st, hst, hshow⟩
  rcases of_decide_eq_true hshow with ⟨hok, hfind⟩
  generalize hcompact : st.compact crc s.disk [] = out at hok
  rcases out with ⟨o, disk', fs⟩
  rcases Option.map_eq_some_iff.mp hok with ⟨⟨ok, st'⟩, rfl, rfl⟩
  have hkeyed : ∀ r : RawRecord, r.fits → (∀ j ∈ r.full, j.idemKey = [1]) →
      ∀ doSync fates, (Service.Op.commit r doSync fates).keyed (fun _ => [1]) :=
    fun r hr hfull _ _ => ⟨hr, hfull⟩
  have hops : ∀ op ∈ ops, op.keyed (fun _ => [1]) := by
    intro op hop
    simp only [ops, List.mem_cons, List.not_mem_nil, or_false] at hop
    rcases hop with rfl | rfl | rfl | rfl
    · exact trivial
    · exact hkeyed _ (by decide) (by decide) _ _
    · exact hkeyed _ (by decide) (by decide) _ _
    · exact hkeyed _ (by decide) (by decide) _ _
  rcases (compaction_preserves_store crc (fun _ => [1]) ops hops hs hst hcompact).2 64 with
    ⟨st'', disk'', fs', hopen, halike⟩
  exact ⟨s, st, st', disk', fs, hs, hst, hcompact, hfind, st'', disk'', fs', hopen, halike⟩

end Tautq
