import Tautq.Core.Store
import Tautq.Safety.Recovery

/-!
# The Cluster's Store and the Store on Disk

The cluster runs on `Store`, whose log is a list of records and whose disk has three
answers to an append. Here that store is what the job store on its disk amounts to:
numbers are read as natural numbers, a state byte as a state, and a log as the table it
replays to.

A commit on the disk, whatever becomes of its system calls, is a commit of the cluster's
store with one of the disk's answers. So is a compaction, unless it is given up with the
log as it was. Opening the disk gives the store reopened, also after a process that was
killed.

## Main definitions

* `RawJob.Reads`, `RawRecord.Reads`, `RawTable.Reads`: What stored things are read as.
* `Refines`: A job store on its disk, and the store it amounts to.

## Theorems

* `RawRecord.Reads.on`: Records act on copies as they are read.
* `commit_refines`, `compact_refines`, `openStore_refines`: The operations.
-/

namespace Tautq

open Proc RawTable

/-! ### Reading stored jobs -/

theorem JobState.byte_inj {s s' : JobState} : s.byte = s'.byte ↔ s = s' := by
  cases s <;> cases s' <;> decide

theorem RawId.toJobId_inj {id id' : RawId} : id.toJobId = id'.toJobId ↔ id = id' := by
  rcases id with ⟨o, n⟩
  rcases id' with ⟨o', n'⟩
  simp [RawId.toJobId, UInt64.toNat_inj]

/-- A stored job is read as a job. There is none for a state byte that is no state. -/
structure RawJob.Reads (j : RawJob) (J : Job) : Prop where
  id : J.id = j.id.toJobId
  idemKey : J.idemKey = j.idemKey
  url : J.url = j.url
  body : J.body = j.body
  visibilityMs : J.visibilityMs = j.visibilityMs.toNat
  maxAttempts : J.maxAttempts = j.maxAttempts.toNat
  replicas : J.replicas = j.replicas
  state : j.state = J.state.byte
  owner : J.owner = j.owner
  epoch : J.epoch = j.epoch.toNat
  leaseSeq : J.leaseSeq = j.leaseSeq.toNat
  attempts : J.attempts = j.attempts.toNat

theorem RawJob.Reads.advances {l j : RawJob} {L J : Job} (hl : l.Reads L) (hj : j.Reads J) :
    rawAdvances l j = jobAdvances L J := by
  unfold rawAdvances jobAdvances
  simp only [hl.epoch, hj.epoch, hl.state, hj.state, hl.leaseSeq, hj.leaseSeq, JobState.byte_inj,
    UInt32.lt_iff_toNat_lt, ne_eq, UInt32.toNat_inj]

/-- A stored record is read as a record. -/
inductive RawRecord.Reads : RawRecord → Record → Prop where
  | submit {j : RawJob} {J : Job} (h : j.Reads J) : Reads (.submit j) (.submit J)
  | replicate {j : RawJob} {J : Job} (h : j.Reads J) : Reads (.replicate j) (.replicate J)
  | lease (id : RawId) (epoch leaseSeq : UInt32) (worker : UInt64) :
      Reads (.lease id epoch leaseSeq worker)
        (.lease id.toJobId epoch.toNat leaseSeq.toNat worker.toNat)
  | done (id : RawId) (epoch leaseSeq : UInt32) :
      Reads (.done id epoch leaseSeq) (.done id.toJobId epoch.toNat leaseSeq.toNat)
  | expire (id : RawId) (epoch leaseSeq : UInt32) :
      Reads (.expire id epoch leaseSeq) (.expire id.toJobId epoch.toNat leaseSeq.toNat)
  | deadLetter (id : RawId) (epoch : UInt32) :
      Reads (.deadLetter id epoch) (.deadLetter id.toJobId epoch.toNat)
  | takeover (id : RawId) (newEpoch : UInt32) (newOwner : Endpoint) :
      Reads (.takeover id newEpoch newOwner) (.takeover id.toJobId newEpoch.toNat newOwner)

namespace RawRecord.Reads

variable {r : RawRecord} {R : Record} {l : RawJob} {L : Job}

theorem jobId (h : r.Reads R) : R.jobId = r.jobId.toJobId := by
  cases h with
  | submit h => exact h.id
  | replicate h => exact h.id
  | lease | done | expire | deadLetter | takeover => rfl

theorem full (h : r.Reads R) : Option.Rel RawJob.Reads r.full R.full := by
  cases h with
  | submit h => exact .some h
  | replicate h => exact .some h
  | lease | done | expire | deadLetter | takeover => exact .none

/-- Records act on copies as they are read. -/
theorem on (h : r.Reads R) (hl : l.Reads L) : (r.on l).Reads (R.on L) := by
  cases h with
  | submit h => exact h
  | replicate h =>
    simp only [RawRecord.on, Record.on, hl.advances h]
    split
    · exact h
    · exact hl
  | lease =>
    simp only [RawRecord.on, Record.on, hl.epoch, hl.state, ne_eq, JobState.byte_inj,
      UInt32.le_iff_toNat_le]
    split
    · exact { hl with state := rfl, epoch := rfl, leaseSeq := rfl, attempts := rfl }
    · exact hl
  | done =>
    simp only [RawRecord.on, Record.on, hl.epoch, hl.state, ne_eq, JobState.byte_inj,
      UInt32.le_iff_toNat_le]
    split
    · exact { hl with state := rfl, epoch := rfl, body := rfl }
    · exact hl
  | expire =>
    simp only [RawRecord.on, Record.on, hl.epoch, hl.state, hl.leaseSeq, JobState.byte_inj,
      UInt32.le_iff_toNat_le, UInt32.toNat_inj]
    split
    · exact { hl with state := rfl, epoch := rfl, leaseSeq := rfl }
    · exact hl
  | deadLetter =>
    simp only [RawRecord.on, Record.on, hl.epoch, hl.state, ne_eq, JobState.byte_inj,
      UInt32.le_iff_toNat_le]
    split
    · exact { hl with state := rfl, epoch := rfl }
    · exact hl
  | takeover =>
    simp only [RawRecord.on, Record.on, hl.epoch, UInt32.lt_iff_toNat_lt]
    split
    · exact { hl with epoch := rfl, owner := rfl }
    · exact hl

end RawRecord.Reads

/-! ### Reading tables -/

/-- A stored table is read as a table: copy by copy, and with the same index. -/
structure RawTable.Reads (t : RawTable) (T : Table) : Prop where
  find : ∀ id, Option.Rel RawJob.Reads (t.find id) (T.find id.toJobId)
  only : ∀ {i J}, T.find i = some J → ∃ id : RawId, id.toJobId = i
  byIdem : ∀ key, (t.byIdem.lookup key).map RawId.toJobId = T.byIdem.lookup key

namespace RawTable.Reads

variable {t t' : RawTable} {T T' : Table}

theorem empty : RawTable.Reads {} {} :=
  ⟨fun _ => .none, fun h => (nomatch h), fun _ => rfl⟩

theorem some_left (h : t.Reads T) {id : RawId} {j : RawJob} (hj : t.find id = some j) :
    ∃ J, T.find id.toJobId = some J ∧ j.Reads J := by
  have hrel := h.find id
  rw [hj] at hrel
  cases hT : T.find id.toJobId with
  | none =>
    rw [hT] at hrel
    cases hrel
  | some J =>
    rw [hT] at hrel
    cases hrel with
    | some hr => exact ⟨J, rfl, hr⟩

theorem some_right (h : t.Reads T) {i : JobId} {J : Job} (hJ : T.find i = some J) :
    ∃ id j, id.toJobId = i ∧ t.find id = some j ∧ j.Reads J := by
  rcases h.only hJ with ⟨id, rfl⟩
  have hrel := h.find id
  rw [hJ] at hrel
  cases ht : t.find id with
  | none =>
    rw [ht] at hrel
    cases hrel
  | some j =>
    rw [ht] at hrel
    cases hrel with
    | some hr => exact ⟨id, j, rfl, ht, hr⟩

/-- Tables that answer alike are read alike. -/
theorem congr (h : t.Reads T) (ht : Same t' t) (hfind : ∀ i, T'.find i = T.find i)
    (hindex : ∀ key, T'.byIdem.lookup key = T.byIdem.lookup key) : t'.Reads T' where
  find := fun id => by
    rw [ht.find, hfind]
    exact h.find id
  only := fun hJ => h.only ((hfind _).symm.trans hJ)
  byIdem := fun key => by
    rw [ht.byIdem, hindex]
    exact h.byIdem key

theorem apply {r : RawRecord} {R : Record} (h : t.Reads T) (hr : r.Reads R) :
    (t.apply r).Reads (T.apply R) where
  find := fun id => by
    rw [find_apply, Table.find_apply]
    have hiff : R.jobId = id.toJobId ↔ r.jobId = id := by rw [hr.jobId, RawId.toJobId_inj]
    by_cases hid : r.jobId = id
    · rw [if_pos hid, if_pos (hiff.mpr hid)]
      have hrel := h.find id
      cases ht : t.find id with
      | none =>
        rw [ht] at hrel
        cases hT : T.find id.toJobId with
        | none => exact hr.full
        | some => rw [hT] at hrel; cases hrel
      | some l =>
        rcases h.some_left ht with ⟨L, hL, hl⟩
        rw [hL]
        exact .some (hr.on hl)
    · rw [if_neg hid, if_neg (fun hc => hid (hiff.mp hc))]
      exact h.find id
  only := fun {i J} hJ => by
    rw [Table.find_apply] at hJ
    split at hJ
    · rename_i hid
      exact ⟨r.jobId, hr.jobId.symm.trans hid⟩
    · exact h.only hJ
  byIdem := fun key => by
    rw [byIdem_apply, Table.byIdem_apply]
    have hfull := hr.full
    cases hf : r.full with
    | none =>
      rw [hf] at hfull
      cases hF : R.full with
      | none => exact h.byIdem key
      | some => rw [hF] at hfull; cases hfull
    | some j =>
      rw [hf] at hfull
      cases hF : R.full with
      | none => rw [hF] at hfull; cases hfull
      | some J =>
        rw [hF] at hfull
        cases hfull with
        | some hj =>
          simp only [hj.idemKey, hj.id]
          split
          · rfl
          · exact h.byIdem key

/-- The snapshots of a table and of what it is read as replay alike. -/
theorem snapshot {key : RawId → Bytes} (h : t.Reads T) (hs : RawTable.Sound key t)
    (own : ∀ {i J}, T.find i = some J → J.id = i) :
    (rawReplay t.snapshot).Reads (replay T.snapshot) := by
  refine h.congr hs.snapshot (Table.find_snapshot own) (Table.byIdem_snapshot own (fun i J hJ => ?_)
    (fun k i hk => ?_))
  · rcases h.some_right hJ with ⟨id, j, _, hj, hr⟩
    rcases hs.indexed hj with ⟨id', hid'⟩
    exact ⟨id'.toJobId, by rw [← h.byIdem, hr.idemKey, hid']; rfl⟩
  · rw [← h.byIdem] at hk
    rcases Option.map_eq_some_iff.mp hk with ⟨id, hid, rfl⟩
    rcases hs.named hid with ⟨j, hj, rfl⟩
    rcases h.some_left hj with ⟨J, hJ, hr⟩
    exact ⟨J, hJ, hr.idemKey⟩

end RawTable.Reads

/-! ### The operations -/

variable (crc : Bytes → UInt32)

/-- A disk whose log is that of a store. -/
def LeftBy (disk : Volume) (S : Store) : Prop :=
  ∃ place L durable, AtRest crc false false disk place L durable ∧
    (rawReplay L).Reads (replay (S.file ++ S.limbo.toList))

/-- A job store on its disk, and the store it amounts to: both take commits, or both are
    stopped. -/
inductive Refines (disk : Volume) (st : JobStore) (S : Store) : Prop where
  | live (L : List Bytes) (durable : Nat) (h : Live crc false false disk st.wal L durable)
      (hopen : S.failed = false) (htable : st.table.Reads S.table)
      (hlog : (rawReplay L).Reads (replay S.file))
  | stopped (hfailed : st.wal.failed = true) (hstop : S.failed = true)
      (htable : st.table.Reads S.table) (hleft : LeftBy crc disk S)

variable {crc} {disk : Volume} {st : JobStore} {S : Store} {r : RawRecord} {R : Record}

/-- A log at rest is that of a store with no record in doubt. -/
theorem leftBy_of_file {place : Option Name} {L : List Bytes} {durable : Nat}
    (h : AtRest crc false false disk place L durable) (hlimbo : S.limbo = none)
    (hlog : (rawReplay L).Reads (replay S.file)) : LeftBy crc disk S := by
  refine ⟨place, L, durable, h, ?_⟩
  rw [hlimbo, Option.toList_none, List.append_nil]
  exact hlog

/-- Opening a disk gives the store reopened. -/
theorem openStore_refines (h : LeftBy crc disk S) (segmentBytes : Nat) :
    ∃ st disk' fs, JobStore.openStore crc segmentBytes disk [] = (some (true, st), disk', fs) ∧
      Refines crc disk' st S.reopen := by
  rcases h with ⟨place, L, durable, hrest, hlog⟩
  rcases Service.openStore_run hrest segmentBytes with ⟨st, disk', fs, hrun, htable, hlive⟩
  exact ⟨st, disk', fs, hrun, .live L durable hlive rfl (htable ▸ hlog) hlog⟩

/-- Whatever becomes of a commit, it is a commit of the cluster's store with some answer of its
    disk. -/
theorem commit_refines (h : Refines crc disk st S) (hr : r.fits) (hR : r.Reads R) (doSync : Bool) :
    Ends (fun _ => True) (st.commit crc r doSync) disk
      (fun a disk' => ∃ d, (S.commit R d).2 = a.1 ∧ Refines crc disk' a.2 (S.commit R d).1)
      (fun disk' => ∃ d, LeftBy crc disk' (S.commit R d).1) := by
  cases h with
  | stopped hfailed hstop htable hleft =>
    rw [Service.commit_failed hfailed]
    have hrefused : S.commit R .durable = (S, false) := if_pos hstop
    refine .pure ⟨.durable, by rw [hrefused], ?_⟩
    rw [hrefused]
    exact .stopped hfailed hstop htable hleft
  | live L durable hlive hopen htable hlog =>
    rcases Service.commit_ends (F := fun _ => True) hlive hr doSync with ⟨lsn, hends⟩
    -- The three answers.
    have hnew : (rawReplay (L ++ [encodeRecord r lsn])).Reads (replay (S.file ++ [R])) := by
      rw [rawReplay_snoc hr, replay_snoc]
      exact hlog.apply hR
    have hdurable : S.commit R .durable = (S.append R, true) := by simp [Store.commit, hopen]
    have hlost : S.commit R .lost = (S.fail none, false) := by simp [Store.commit, hopen]
    have hkept : S.commit R .kept = (S.fail (some R), false) := by simp [Store.commit, hopen]
    have hleft : ∀ {disk' place durable}, AtRest crc false false disk' place L durable →
        LeftBy crc disk' (S.fail none) := fun hrest => leftBy_of_file hrest rfl hlog
    have hleft' : ∀ {disk' place durable},
        AtRest crc false false disk' place (L ++ [encodeRecord r lsn]) durable →
        LeftBy crc disk' (S.fail (some R)) :=
      fun hrest => ⟨_, _, _, hrest, hnew⟩
    refine hends.mono (fun a disk' ha => ?_) (fun disk' hk => ?_)
    · rcases ha with ⟨hok, ht, d, hlive'⟩ | ⟨hok, ht, hfailed, place, d, hrest | hrest⟩
      · refine ⟨.durable, by rw [hdurable, hok], ?_⟩
        rw [hdurable]
        exact .live _ d hlive' hopen (ht ▸ htable.apply hR) hnew
      · refine ⟨.lost, by rw [hlost, hok], ?_⟩
        rw [hlost]
        exact .stopped hfailed rfl (ht ▸ htable) (hleft hrest)
      · refine ⟨.kept, by rw [hkept, hok], ?_⟩
        rw [hkept]
        exact .stopped hfailed rfl (ht ▸ htable) (hleft' hrest)
    · rcases hk with ⟨place, d, hrest | hrest⟩
      · exact ⟨.lost, hlost ▸ hleft hrest⟩
      · exact ⟨.kept, hkept ▸ hleft' hrest⟩

/-- A compaction is one of the cluster's store with some answer of its disk, or nothing. -/
theorem compact_refines {key : RawId → Bytes} (h : Refines crc disk st S)
    (hs : RawTable.Sound key st.table) : Ends (fun _ => True) (st.compact crc) disk
      (fun a disk' => Refines crc disk' a.2 S ∨ ∃ d, Refines crc disk' a.2 (S.compact d))
      (fun disk' => LeftBy crc disk' S ∨ ∃ d, LeftBy crc disk' (S.compact d)) := by
  cases h with
  | stopped hfailed hstop htable hleft =>
    rw [Service.compact_failed hfailed]
    exact .pure (.inl (.stopped hfailed hstop htable hleft))
  | live L durable hlive hopen htable hlog =>
    have hsnap := htable.snapshot hs S.find_id
    have hlimbo := S.settled hopen
    have hdurable : S.compact .durable = S.install := by simp [Store.compact, hopen]
    have hlost : S.compact .lost = S.fail none := by simp [Store.compact, hopen]
    have hkept : S.compact .kept = S.install.fail none := by simp [Store.compact, hopen]
    refine (Service.compact_store_ends hlive).mono (fun a disk' ha => ?_) (fun disk' hk => ?_)
    · rcases ha with ⟨ht, L', d, hL', hlive' | ⟨_, hfailed, place, hrest⟩⟩
      · rcases hL' with ⟨rfl, _⟩ | rfl
        · exact .inl (.live _ d hlive' hopen (ht ▸ htable) hlog)
        · exact .inr ⟨.durable, hdurable ▸ .live _ d hlive' hopen (ht ▸ htable) hsnap⟩
      · rcases hL' with ⟨rfl, _⟩ | rfl
        · exact .inr ⟨.lost,
            hlost ▸ .stopped hfailed rfl (ht ▸ htable) (leftBy_of_file hrest rfl hlog)⟩
        · exact .inr ⟨.kept,
            hkept ▸ .stopped hfailed rfl (ht ▸ htable) (leftBy_of_file hrest rfl hsnap)⟩
    · rcases hk with ⟨place, L', d, rfl | rfl, hrest⟩
      · exact .inl (leftBy_of_file hrest hlimbo hlog)
      · exact .inr ⟨.durable, hdurable ▸ leftBy_of_file hrest hlimbo hsnap⟩

end Tautq
