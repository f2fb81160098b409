import Tautq.Core.JobStore
import Tautq.Lib.Filing
import Tautq.Theory.Codec
import Tautq.Theory.Frames

/-!
# What the Job Store Replays

A table is a map and an index, so two tables are the same when they answer every
lookup alike; records keep that. A record within the limits is stored in one frame
and read back as itself, so the table a log replays to follows the commits.

The full copies of a sound table replay to the same table. In a sound table every
copy is under its own id and within the limits, and every key belongs to the job the
index names for it.

## Main definitions

* `RawTable.Same`: Two tables answer every lookup alike.
* `RawTable.Sound`: What a table needs for its snapshot to replay to it.

## Theorems

* `RawTable.find_apply`, `RawTable.byIdem_apply`: What a record leaves behind.
* `framable_encodeRecord`: A record within the limits fits a frame.
* `rawReplay_snoc`: A committed record is replayed as itself.
* `RawTable.Sound.apply`: Records of one key per job keep a table sound.
* `RawTable.Sound.snapshot`: A snapshot replays to the table.
-/

namespace Tautq

namespace RawRecord

/-- A record leaves the full copy it carries, or a copy with the same id and key. -/
theorem on_cases (r : RawRecord) (l : RawJob) : r.full = some (r.on l) ∨
    ((r.on l).id = l.id ∧ (r.on l).idemKey = l.idemKey ∧ (l.fits → (r.on l).fits)) := by
  cases r with
  | submit j => exact .inl rfl
  | replicate j =>
    simp only [on, full]
    split
    · exact .inl rfl
    · exact .inr ⟨rfl, rfl, id⟩
  | done =>
    right
    simp only [on]
    split
    · exact ⟨rfl, rfl, fun h => ⟨h.1, h.2.1, Nat.zero_le _⟩⟩
    · exact ⟨rfl, rfl, id⟩
  | lease | expire | deadLetter | takeover =>
    right
    simp only [on]
    split
    · exact ⟨rfl, rfl, fun h => h⟩
    · exact ⟨rfl, rfl, id⟩

theorem full_jobId {r : RawRecord} {j : RawJob} (h : r.full = some j) : j.id = r.jobId := by
  cases r with
  | submit => cases h; rfl
  | replicate => cases h; rfl
  | lease | done | expire | deadLetter | takeover => cases h

theorem full_fits {r : RawRecord} {j : RawJob} (h : r.full = some j) (hr : r.fits) : j.fits := by
  cases r with
  | submit => cases h; exact hr
  | replicate => cases h; exact hr
  | lease | done | expire | deadLetter | takeover => cases h

end RawRecord

namespace RawTable

variable {t t' t'' : RawTable}

/-- A record changes the copy of its own job and no other. -/
theorem find_apply (t : RawTable) (r : RawRecord) (id : RawId) :
    (t.apply r).find id = if r.jobId = id then r.effect (t.find id) else t.find id := by
  by_cases hid : r.jobId = id
  · subst hid
    rw [if_pos rfl]
    unfold apply
    rw [find]
    cases heff : r.effect (t.find r.jobId) with
    | some j => exact AList.lookup_insert t.jobs
    | none =>
      -- Only a missing copy can be left missing.
      cases hfind : t.find r.jobId with
      | none => exact hfind
      | some l =>
        rw [hfind] at heff
        cases heff
  · rw [if_neg hid]
    unfold apply
    rw [find]
    cases r.effect (t.find r.jobId) with
    | some j => exact AList.lookup_insert_ne (Ne.symm hid)
    | none => rfl

/-- Only a full copy touches the index, at its own key. -/
theorem byIdem_apply (t : RawTable) (r : RawRecord) (key : Bytes) :
    (t.apply r).byIdem.lookup key =
      match r.full with
      | none => t.byIdem.lookup key
      | some j => if j.idemKey = key then some j.id else t.byIdem.lookup key := by
  unfold apply
  cases r.full with
  | none => rfl
  | some j =>
    simp only
    by_cases hkey : j.idemKey = key
    · rw [if_pos hkey, hkey, AList.lookup_insert]
    · rw [if_neg hkey, AList.lookup_insert_ne (Ne.symm hkey)]

/-- A copy that is there after a record was there before, or is the one the record carries. -/
theorem find_apply_cases {r : RawRecord} {id : RawId} {j : RawJob}
    (h : (t.apply r).find id = some j) :
    (∃ l, t.find id = some l) ∨ (r.jobId = id ∧ r.full = some j) := by
  rw [find_apply] at h
  split at h
  · rename_i hid
    cases hl : t.find id with
    | none =>
      rw [hl] at h
      exact .inr ⟨hid, h⟩
    | some l => exact .inl ⟨l, rfl⟩
  · exact .inl ⟨j, h⟩

/-- No record takes a copy away. -/
theorem find_apply_some {id : RawId} {l : RawJob} (h : t.find id = some l) (r : RawRecord) :
    ∃ j, (t.apply r).find id = some j := by
  rw [find_apply, h]
  split
  · exact ⟨_, rfl⟩
  · exact ⟨l, rfl⟩

/-- A full copy's job is there afterwards. -/
theorem find_apply_full {r : RawRecord} {j : RawJob} (h : r.full = some j) :
    ∃ j', (t.apply r).find j.id = some j' := by
  rw [find_apply, if_pos (RawRecord.full_jobId h).symm]
  cases t.find j.id with
  | none => exact ⟨j, h⟩
  | some l => exact ⟨_, rfl⟩

/-- An index entry is an old one or a full copy's. -/
theorem byIdem_apply_cases {r : RawRecord} {k : Bytes} {id : RawId}
    (h : (t.apply r).byIdem.lookup k = some id) :
    t.byIdem.lookup k = some id ∨ ∃ j, r.full = some j ∧ j.idemKey = k ∧ j.id = id := by
  rw [byIdem_apply] at h
  cases hf : r.full with
  | none =>
    rw [hf] at h
    exact .inl h
  | some j =>
    rw [hf] at h
    simp only at h
    split at h
    · exact .inr ⟨j, rfl, by assumption, Option.some.inj h⟩
    · exact .inl h

/-- No record takes a key away. -/
theorem byIdem_apply_some {k : Bytes} {id : RawId} (h : t.byIdem.lookup k = some id)
    (r : RawRecord) : ∃ id', (t.apply r).byIdem.lookup k = some id' := by
  rw [byIdem_apply, h]
  cases r.full with
  | none => exact ⟨id, rfl⟩
  | some j =>
    simp only
    split
    · exact ⟨_, rfl⟩
    · exact ⟨id, rfl⟩

/-! ### The same table -/

/-- Two tables answer every lookup alike. -/
structure Same (t t' : RawTable) : Prop where
  find : ∀ id, t.find id = t'.find id
  byIdem : ∀ key, t.byIdem.lookup key = t'.byIdem.lookup key

namespace Same

theorem refl (t : RawTable) : Same t t :=
  ⟨fun _ => rfl, fun _ => rfl⟩

theorem symm (h : Same t t') : Same t' t :=
  ⟨fun id => (h.find id).symm, fun key => (h.byIdem key).symm⟩

theorem findByIdem (h : Same t t') (key : Bytes) : t.findByIdem key = t'.findByIdem key := by
  rw [RawTable.findByIdem, RawTable.findByIdem, h.byIdem, show t.find = t'.find from funext h.find]

theorem apply (h : Same t t') (r : RawRecord) : Same (t.apply r) (t'.apply r) where
  find := fun id => by rw [find_apply, find_apply, h.find]
  byIdem := fun key => by rw [byIdem_apply, byIdem_apply, h.byIdem]

theorem foldl (h : Same t t') (rs : List RawRecord) :
    Same (rs.foldl RawTable.apply t) (rs.foldl RawTable.apply t') := by
  induction rs generalizing t t' with
  | nil => exact h
  | cons r rs ih => exact ih (h.apply r)

end Same

end RawTable

/-! ### Stored records -/

/-- A record within the limits fits a frame. -/
theorem framable_encodeRecord {r : RawRecord} (h : r.fits) (lsn : UInt64) :
    Framable (encodeRecord r lsn) := by
  have hpayload : r.payload.2.length ≤ 1027 := by
    have hjob : ∀ {j : RawJob}, j.fits → (putJob j).length ≤ 1027 := by
      intro j hj
      have hlen := hj.1
      have hlen₁ := hj.2.1
      have hlen₂ := hj.2.2
      rw [putJob_eq]
      simp only [List.length_append, length_putJobId, length_putStr, length_putFixed, kJobIdSize,
        kEndpointSize, kMaxIdemKey, kMaxUrl, kMaxJobBody] at hlen hlen₁ hlen₂ ⊢
      omega
    cases r with
    | submit j => exact hjob h
    | replicate j => exact hjob h
    | lease | done | expire | deadLetter | takeover =>
      simp [RawRecord.payload, putFence, length_putU32, length_putU64, length_putJobId,
        length_putEndpoint, kJobIdSize, kEndpointSize]
  constructor
  · simp [encodeRecord, putU8]
  · simp only [encodeRecord, List.length_append, length_putU8, length_putU64, kMaxBody]
    omega

theorem replayBody_encodeRecord {r : RawRecord} (h : r.fits) (lsn : UInt64) (t : RawTable) :
    t.replayBody (encodeRecord r lsn) = t.apply r := by
  have hdecode := (decodeRecord_iff (encodeRecord r lsn) r lsn).mpr ⟨h, List.prefix_refl _⟩
  rw [RawTable.replayBody, hdecode]

/-- A committed record is replayed as itself. -/
theorem rawReplay_snoc {r : RawRecord} (h : r.fits) (bodies : List Bytes) (lsn : UInt64) :
    rawReplay (bodies ++ [encodeRecord r lsn]) = (rawReplay bodies).apply r := by
  rw [rawReplay, List.foldl_append, List.foldl_cons, List.foldl_nil,
    replayBody_encodeRecord h, rawReplay]

/-! ### Snapshots -/

namespace RawTable

variable {t t' : RawTable} {key : RawId → Bytes}

/-- Full copies put into a table, as a filing system. -/
def filing : Filing RawTable RawId Bytes RawJob where
  find := RawTable.find
  index := fun t key => t.byIdem.lookup key
  put := fun t j => t.apply (.replicate j)
  id := RawJob.id
  key := RawJob.idemKey
  find_other := fun t j id hid => by
    rw [find_apply, if_neg (show (RawRecord.replicate j).jobId ≠ id from hid)]
  find_new := fun t j hnone => by
    rw [find_apply, if_pos (show (RawRecord.replicate j).jobId = j.id from rfl), hnone]
    rfl
  index_put := fun t j key => byIdem_apply t (.replicate j) key

/-- Every copy is under its own id, within the limits and with the key of its job; and the index
    names, for every key of a copy, a job with that key. -/
structure Sound (key : RawId → Bytes) (t : RawTable) : Prop where
  own : ∀ {id j}, t.find id = some j → j.id = id
  fits : ∀ {id j}, t.find id = some j → j.fits
  keyed : ∀ {id j}, t.find id = some j → j.idemKey = key id
  indexed : ∀ {id j}, t.find id = some j → ∃ id', t.byIdem.lookup j.idemKey = some id'
  named : ∀ {k id}, t.byIdem.lookup k = some id → ∃ j, t.find id = some j ∧ j.idemKey = k

namespace Sound

theorem empty (key : RawId → Bytes) : Sound key {} where
  own := fun h => nomatch h
  fits := fun h => nomatch h
  keyed := fun h => nomatch h
  indexed := fun h => nomatch h
  named := fun h => nomatch h

theorem congr (h : Sound key t) (hsame : Same t t') : Sound key t' where
  own := fun hf => h.own ((hsame.find _).trans hf)
  fits := fun hf => h.fits ((hsame.find _).trans hf)
  keyed := fun hf => h.keyed ((hsame.find _).trans hf)
  indexed := fun hf => by
    rw [← hsame.byIdem]
    exact h.indexed ((hsame.find _).trans hf)
  named := fun hk => by
    rcases h.named ((hsame.byIdem _).trans hk) with ⟨j, hj, hjk⟩
    exact ⟨j, (hsame.find _).symm.trans hj, hjk⟩

section Apply

variable (h : Sound key t) {r : RawRecord} (hr : r.fits)
  (hkey : ∀ j, r.full = some j → j.idemKey = key j.id)

include h hr hkey

/-- What a record leaves under an id. -/
theorem left {id : RawId} {j : RawJob} (hj : (t.apply r).find id = some j) :
    j.id = id ∧ j.fits ∧ j.idemKey = key id := by
  have hfull : ∀ {j}, r.full = some j → r.jobId = id → j.id = id ∧ j.fits ∧ j.idemKey = key id := by
    rintro j' hnew rfl
    have hid := RawRecord.full_jobId hnew
    exact ⟨hid, RawRecord.full_fits hnew hr, hid ▸ hkey j' hnew⟩
  rcases find_apply_cases hj with ⟨l, hl⟩ | ⟨hid, hnew⟩
  swap
  · exact hfull hnew hid
  rw [find_apply, hl] at hj
  split at hj
  · rename_i hid
    cases hj
    rcases r.on_cases l with hnew | ⟨hsame, hsameKey, hsameFits⟩
    · exact hfull hnew hid
    · exact ⟨hsame.trans (h.own hl), hsameFits (h.fits hl), hsameKey.trans (h.keyed hl)⟩
  · cases hj
    exact ⟨h.own hl, h.fits hl, h.keyed hl⟩

/-- A record of the job's key, within the limits, keeps a table sound. -/
theorem apply : Sound key (t.apply r) where
  own := fun hj => (h.left hr hkey hj).1
  fits := fun hj => (h.left hr hkey hj).2.1
  keyed := fun hj => (h.left hr hkey hj).2.2
  indexed := fun {id j} hj => by
    rcases find_apply_cases hj with ⟨l, hl⟩ | ⟨_, hnew⟩
    · rcases h.indexed hl with ⟨id', hid'⟩
      rw [(h.left hr hkey hj).2.2, ← h.keyed hl]
      exact byIdem_apply_some hid' r
    · rw [byIdem_apply, hnew]
      exact ⟨j.id, if_pos rfl⟩
  named := fun {k id} hk => by
    -- The job is there, and the key is the one of its copies.
    have hthere : ∃ j, (t.apply r).find id = some j ∧ key id = k := by
      rcases byIdem_apply_cases hk with hold | ⟨j, hj, rfl, rfl⟩
      · rcases h.named hold with ⟨l, hl, rfl⟩
        rcases find_apply_some hl r with ⟨j, hj⟩
        exact ⟨j, hj, (h.keyed hl).symm⟩
      · rcases find_apply_full (t := t) hj with ⟨j', hj'⟩
        exact ⟨j', hj', (hkey j hj).symm⟩
    rcases hthere with ⟨j, hj, rfl⟩
    exact ⟨j, hj, (h.left hr hkey hj).2.2⟩

end Apply

end Sound

/-- What decides where a copy is written. -/
def rank (t : RawTable) (j : RawJob) : Rank :=
  ⟨j.idemKey, t.selected j, j.id.origin.toNat, j.id.nonce.toNat⟩

theorem before_eq (t : RawTable) (a b : RawJob) :
    t.before a b = Rank.before (t.rank a) (t.rank b) := by
  unfold before Rank.before rank
  simp only [UInt64.lt_iff_toNat_lt, ← UInt64.toNat_inj]

theorem mem_retained (own : ∀ {id j}, t.find id = some j → j.id = id) (j : RawJob) :
    j ∈ t.retained ↔ t.find j.id = some j := by
  rw [retained, (List.perm_insertionSort _ _).mem_iff, List.mem_map]
  constructor
  · rintro ⟨⟨id, j'⟩, hmem, rfl⟩
    have hfind : t.find id = some j' := AList.mem_lookup_iff.mpr hmem
    rw [own hfind]
    exact hfind
  · intro h
    exact ⟨⟨j.id, j⟩, AList.mem_lookup_iff.mp h, rfl⟩

theorem nodup_retained (own : ∀ {id j}, t.find id = some j → j.id = id) :
    (t.retained.map RawJob.id).Nodup := by
  have hperm : (t.retained.map RawJob.id).Perm t.jobs.keys := by
    refine ((List.perm_insertionSort _ _).map RawJob.id).trans ?_
    rw [List.map_map, AList.keys, List.keys]
    refine List.Perm.of_eq (List.map_congr_left (fun x hx => ?_))
    exact own (AList.mem_lookup_iff.mpr hx)
  exact hperm.nodup_iff.mpr t.jobs.keys_nodup

theorem pairwise_retained (t : RawTable) :
    t.retained.Pairwise (fun a b => Rank.before (t.rank b) (t.rank a) = false) := by
  unfold retained
  simp only [before_eq]
  exact Rank.pairwise_sort t.rank _

/-- Full copies within the limits are replayed as themselves, whatever their numbers. -/
theorem foldl_copies (l : List RawJob) (hl : ∀ j ∈ l, j.fits) (k : Nat) (t : RawTable) :
    ((l.zipIdx k).map (fun x => encodeRecord (.replicate x.1) (UInt64.ofNat x.2))).foldl
    replayBody t =
      l.foldl filing.put t := by
  induction l generalizing k t with
  | nil => rfl
  | cons j l ih =>
    rw [List.zipIdx_cons, List.map_cons, List.foldl_cons, List.foldl_cons,
      replayBody_encodeRecord (r := .replicate j) (hl j List.mem_cons_self)]
    exact ih (fun j' hj' => hl j' (List.mem_cons_of_mem j hj')) _ _

namespace Sound

/-- A snapshot replays to the table. -/
theorem snapshot (h : Sound key t) : Same (rawReplay t.snapshot) t := by
  have hcopies : rawReplay t.snapshot = t.retained.foldl filing.put {} :=
    foldl_copies t.retained (fun j hj => h.fits ((mem_retained h.own j).mp hj)) 0 {}
  rw [hcopies]
  refine ⟨filing.find_rebuild (nodup_retained h.own) (mem_retained h.own) h.own (fun _ => rfl),
    filing.index_rebuild (nodup_retained h.own) (mem_retained h.own) ⟨h.own, h.indexed, h.named⟩
      (fun _ => rfl) ?_⟩
  refine t.pairwise_retained.imp (fun {a b} hle hkey hsel => ?_)
  have hselected : ∀ j, t.selected j = true ↔ filing.Selected t j := fun j => by
    rw [selected, decide_eq_true_iff]
    exact Iff.rfl
  rw [← hselected] at hsel ⊢
  exact Rank.selected_of_before hle hkey hsel

end Sound

end RawTable

end Tautq
