import Tautq.Core.Codec

/-!
# Reading Records Back

A record is accepted exactly where its bytes are: `decodeRecord_iff` says that the
reader returns a record and a sequence number when the string starts with their
encoding and the record's strings are within the limits, and only then.

Everything asked of the format follows. A record is read back, since its encoding
starts with itself. What is accepted starts with the encoding of what was read. And
no cut string is accepted, since what is read from it would have been read from
the whole one.

## Theorems

* `sits_putU32` and its kin: A field sits where it is read.
* `getStr_iff`, `getJob_iff`, `decodePayload_self`: The same for strings, jobs and
  payloads.
* `decodeRecord_iff`: A record is accepted exactly where its bytes are.
* `decodeParams_encodeParams`: A forwarded submit is read back.
* `records_round_trip`: Records are read back, cut ones are rejected, and what is
  accepted starts with the encoding of what was read.
-/

namespace Tautq

variable {b : Bytes} {off : Nat}

/-! ### Fields -/

@[simp]
theorem length_putU8 (v : UInt8) : (putU8 v).length = 1 := rfl

@[simp]
theorem length_putU16 (v : UInt16) : (putU16 v).length = 2 := length_leBytes 2 _

@[simp]
theorem length_putU32 (v : UInt32) : (putU32 v).length = 4 := length_leBytes 4 _

@[simp]
theorem length_putU64 (v : UInt64) : (putU64 v).length = 8 := length_leBytes 8 _

@[simp]
theorem length_putEndpoint (e : Endpoint) : (putEndpoint e).length = kEndpointSize := by
  simp [putEndpoint, kEndpointSize]

@[simp]
theorem length_putJobId (id : RawId) : (putJobId id).length = kJobIdSize := by
  simp [putJobId, kJobIdSize]

@[simp]
theorem length_putStr (s : Bytes) : (putStr s).length = 2 + s.length := by
  simp [putStr]

theorem sits_putU8 (v : UInt8) : Sits (putU8 v) b off ↔ off + 1 ≤ b.length ∧ getU8 b off = v := by
  have hput : putU8 v = leBytes 1 v.toNat := by
    rw [putU8, leBytes, leBytes, UInt8.ofNat_toNat]
  rw [hput, sits_leBytes v.toNat_lt, getU8]
  refine and_congr_right (fun _ => ⟨fun h => ?_, fun h => ?_⟩)
  · rw [h, UInt8.ofNat_toNat]
  · rw [← h, UInt8.toNat_ofNat_of_lt' (leAt_lt 1 b off)]

theorem sits_putU16 (v : UInt16) :
    Sits (putU16 v) b off ↔ off + 2 ≤ b.length ∧ getU16 b off = v := by
  rw [putU16, sits_leBytes v.toNat_lt, getU16]
  refine and_congr_right (fun _ => ⟨fun h => ?_, fun h => ?_⟩)
  · rw [h, UInt16.ofNat_toNat]
  · rw [← h, UInt16.toNat_ofNat_of_lt' (leAt_lt 2 b off)]

theorem sits_putU32 (v : UInt32) :
    Sits (putU32 v) b off ↔ off + 4 ≤ b.length ∧ getU32 b off = v := by
  rw [putU32, sits_leBytes v.toNat_lt, getU32]
  refine and_congr_right (fun _ => ⟨fun h => ?_, fun h => ?_⟩)
  · rw [h, UInt32.ofNat_toNat]
  · rw [← h, UInt32.toNat_ofNat_of_lt' (leAt_lt 4 b off)]

theorem sits_putU64 (v : UInt64) :
    Sits (putU64 v) b off ↔ off + 8 ≤ b.length ∧ getU64 b off = v := by
  rw [putU64, sits_leBytes v.toNat_lt, getU64]
  refine and_congr_right (fun _ => ⟨fun h => ?_, fun h => ?_⟩)
  · rw [h, UInt64.ofNat_toNat]
  · rw [← h, UInt64.toNat_ofNat_of_lt' (leAt_lt 8 b off)]

theorem sits_putEndpoint (e : Endpoint) :
    Sits (putEndpoint e) b off ↔ off + kEndpointSize ≤ b.length ∧ getEndpoint b off = e := by
  rcases e with ⟨addr, port⟩
  rw [putEndpoint, sits_append, sits_putU32, sits_putU16, length_putU32, getEndpoint,
    Endpoint.mk.injEq, kEndpointSize]
  constructor
  · rintro ⟨⟨_, haddr⟩, hle, hport⟩
    exact ⟨by omega, haddr, hport⟩
  · rintro ⟨hle, haddr, hport⟩
    exact ⟨⟨by omega, haddr⟩, by omega, hport⟩

theorem sits_putJobId (id : RawId) :
    Sits (putJobId id) b off ↔ off + kJobIdSize ≤ b.length ∧ getJobId b off = id := by
  rcases id with ⟨origin, nonce⟩
  rw [putJobId, sits_append, sits_putU64, sits_putU64, length_putU64, getJobId, RawId.mk.injEq,
    kJobIdSize]
  constructor
  · rintro ⟨⟨_, horigin⟩, hle, hnonce⟩
    exact ⟨by omega, horigin, hnonce⟩
  · rintro ⟨hle, horigin, hnonce⟩
    exact ⟨⟨by omega, horigin⟩, by omega, hnonce⟩

/-- A string is read exactly where it sits, if it is within the limit. -/
theorem getStr_iff {max : Nat} (hmax : max < 2 ^ 16) (s : Bytes) (off' : Nat) :
    getStr b off max = some (s, off') ↔
      s.length ≤ max ∧ off' = off + (putStr s).length ∧ Sits (putStr s) b off := by
  rw [putStr, sits_append, sits_putU16, List.length_append, length_putU16, getStr, Sits]
  by_cases hhead : b.length < off + 2
  · rw [if_pos hhead]
    constructor
    · intro h
      cases h
    · rintro ⟨_, _, ⟨hle, _⟩, _⟩
      omega
  rw [if_neg hhead]
  simp only
  constructor
  · intro h
    split at h
    case isTrue => cases h
    case isFalse hbounds =>
      simp only [Option.some.injEq, Prod.mk.injEq] at h
      rcases h with ⟨rfl, rfl⟩
      rw [not_or, not_lt, not_lt] at hbounds
      have hlen : ((b.drop (off + 2)).take (getU16 b off).toNat).length = (getU16 b off).toNat := by
        rw [List.length_take, List.length_drop]
        omega
      rw [hlen, UInt16.ofNat_toNat]
      exact ⟨hbounds.1, by omega, ⟨by omega, rfl⟩, by omega, rfl⟩
  · rintro ⟨hle, rfl, ⟨_, hlen⟩, hbound, hs⟩
    have hn : (getU16 b off).toNat = s.length := by
      rw [hlen, UInt16.toNat_ofNat_of_lt' (Nat.lt_of_le_of_lt hle hmax)]
    rw [if_neg (by omega), hn, hs, Nat.add_assoc]

/-! ### Jobs -/

/-- The part of a job after its strings. -/
def putFixed (j : RawJob) : Bytes :=
  putU32 j.visibilityMs ++ putU32 j.maxAttempts ++
    putEndpoint j.replicas.first ++ putEndpoint j.replicas.second ++ putEndpoint j.replicas.third ++
    putU8 j.state ++ putEndpoint j.owner ++ putU32 j.epoch ++ putU32 j.leaseSeq ++ putU32 j.attempts

@[simp]
theorem length_putFixed (j : RawJob) : (putFixed j).length = 21 + 4 * kEndpointSize := by
  simp only [putFixed, List.length_append, length_putU32, length_putEndpoint, length_putU8]
  omega

theorem putJob_eq (j : RawJob) : putJob j =
    putJobId j.id ++ (putStr j.idemKey ++ (putStr j.url ++ (putStr j.body ++ putFixed j))) := by
  simp only [putJob, putFixed, List.append_assoc]

/-- The part after the strings is read exactly where it sits. -/
theorem sits_putFixed (j : RawJob) : Sits (putFixed j) b off ↔
    off + 21 + 4 * kEndpointSize ≤ b.length ∧ getFixed b off j.id j.idemKey j.url j.body = j := by
  rcases j with ⟨id, key, url, body, vis, max, ⟨r₁, r₂, r₃⟩, state, owner, epoch, seq, attempts⟩
  simp only [putFixed, sits_append, sits_putU32, sits_putEndpoint, sits_putU8, List.length_append,
    length_putU32, length_putEndpoint, length_putU8, getFixed, RawJob.mk.injEq, ReplicaSet.mk.injEq,
    kEndpointSize, true_and, ← Nat.add_assoc]
  constructor
  · rintro ⟨⟨⟨⟨⟨⟨⟨⟨⟨⟨_, h₁⟩, _, h₂⟩, _, h₃⟩, _, h₄⟩, _, h₅⟩, _, h₆⟩, _, h₇⟩, _, h₈⟩, _, h₉⟩,
      hle, h₁₀⟩
    exact ⟨by omega, h₁, h₂, ⟨h₃, h₄, h₅⟩, h₆, h₇, h₈, h₉, h₁₀⟩
  · rintro ⟨hle, h₁, h₂, ⟨h₃, h₄, h₅⟩, h₆, h₇, h₈, h₉, h₁₀⟩
    exact ⟨⟨⟨⟨⟨⟨⟨⟨⟨⟨by omega, h₁⟩, by omega, h₂⟩, by omega, h₃⟩, by omega, h₄⟩, by omega, h₅⟩,
      by omega, h₆⟩, by omega, h₇⟩, by omega, h₈⟩, by omega, h₉⟩, by omega, h₁₀⟩

/-- A job is read exactly where it sits. -/
theorem getJob_iff (j : RawJob) (n : Nat) : getJob b off = some (j, n) ↔
    j.fits ∧ n = (putJob j).length ∧ Sits (putJob j) b off := by
  have hkey := fun o s o' => @getStr_iff b o _ (show kMaxIdemKey < 2 ^ 16 by decide) s o'
  have hurl := fun o s o' => @getStr_iff b o _ (show kMaxUrl < 2 ^ 16 by decide) s o'
  have hbody := fun o s o' => @getStr_iff b o _ (show kMaxJobBody < 2 ^ 16 by decide) s o'
  rw [putJob_eq, sits_append, sits_append, sits_append, sits_append, sits_putJobId, sits_putFixed]
  simp only [List.length_append, length_putFixed, length_putJobId, RawJob.fits]
  constructor
  · intro h
    unfold getJob at h
    split at h
    · cases h
    split at h
    · cases h
    rename_i hid key off₁ h₁
    split at h
    · cases h
    rename_i url off₂ h₂
    split at h
    · cases h
    rename_i body off₃ h₃
    split at h
    · cases h
    rename_i hfixed
    rw [hkey] at h₁
    rw [hurl] at h₂
    rw [hbody] at h₃
    rcases h₁ with ⟨hk, rfl, hsk⟩
    rcases h₂ with ⟨hu, rfl, hsu⟩
    rcases h₃ with ⟨hb, rfl, hsb⟩
    rw [Option.some.injEq, Prod.mk.injEq] at h
    rcases h with ⟨rfl, rfl⟩
    refine ⟨⟨hk, hu, hb⟩, ?_, ⟨by omega, rfl⟩, hsk, hsu, hsb, ?_, rfl⟩
    · simp only [getFixed]
      omega
    · simp only [getFixed]
      omega
  · rintro ⟨⟨hk, hu, hb⟩, rfl, ⟨hid, hgid⟩, hsk, hsu, hsb, hfixed, hgfixed⟩
    have h₁ := (hkey _ _ _).mpr ⟨hk, rfl, hsk⟩
    have h₂ := (hurl _ _ _).mpr ⟨hu, rfl, hsu⟩
    have h₃ := (hbody _ _ _).mpr ⟨hb, rfl, hsb⟩
    rw [getJob, if_neg (by omega)]
    simp only [h₁, h₂, h₃]
    rw [if_neg (by omega), hgid, hgfixed, Option.some.injEq, Prod.mk.injEq]
    exact ⟨rfl, by omega⟩

/-! ### Records -/

@[simp] theorem length_putFence (id : RawId) (epoch leaseSeq : UInt32) :
    (putFence id epoch leaseSeq).length = kJobIdSize + 8 := by
  simp only [putFence, List.length_append, length_putJobId, length_putU32]

theorem sits_putFence (id : RawId) (epoch leaseSeq : UInt32) :
    Sits (putFence id epoch leaseSeq) b off ↔ off + kJobIdSize + 8 ≤ b.length ∧
      getJobId b off = id ∧ getU32 b (off + kJobIdSize) = epoch ∧
      getU32 b (off + kJobIdSize + 4) = leaseSeq := by
  simp only [putFence, sits_append, sits_putJobId, sits_putU32, List.length_append, length_putJobId,
    length_putU32, ← Nat.add_assoc]
  constructor
  · rintro ⟨⟨⟨_, hid⟩, _, hepoch⟩, hle, hseq⟩
    exact ⟨by omega, hid, hepoch, hseq⟩
  · rintro ⟨hle, hid, hepoch, hseq⟩
    exact ⟨⟨⟨by omega, hid⟩, by omega, hepoch⟩, by omega, hseq⟩

/-- A reader of fixed size: a bounds check, then the fields. -/
theorem guard_iff {α : Type} {n : Nat} {x y : α} :
    (if b.length < n then none else some x) = some y ↔ n ≤ b.length ∧ x = y := by
  split
  · simp only [reduceCtorEq, false_iff, not_and]
    intro hle
    omega
  · simp only [Option.some.injEq, iff_and_self]
    intro _
    omega

/-- The two types that carry a job. -/
theorem map_getJob_iff {c : RawJob → RawRecord} (hc : ∀ j j', c j = c j' → j = j') (j : RawJob) :
    (getJob b off).map (fun x => c x.1) = some (c j) ↔ j.fits ∧ Sits (putJob j) b off := by
  rw [Option.map_eq_some_iff]
  constructor
  · rintro ⟨⟨j', n⟩, h, heq⟩
    rw [hc j' j heq, getJob_iff] at h
    exact ⟨h.1, h.2.2⟩
  · rintro ⟨hfits, hsits⟩
    exact ⟨(j, _), (getJob_iff j _).mpr ⟨hfits, rfl, hsits⟩, rfl⟩

/-- A payload is read exactly where it sits. -/
theorem decodePayload_self (r : RawRecord) : decodePayload r.payload.1 b off = some r ↔
    r.fits ∧ Sits r.payload.2 b off := by
  cases r with
  | submit j => exact map_getJob_iff (fun _ _ h => by cases h; rfl) j
  | replicate j => exact map_getJob_iff (fun _ _ h => by cases h; rfl) j
  | lease id epoch leaseSeq worker =>
    simp only [RawRecord.payload, decodePayload, guard_iff, RawRecord.fits, true_and, sits_append,
      sits_putFence, sits_putU64, length_putFence, RawRecord.lease.injEq]
    constructor
    · rintro ⟨hle, hid, hepoch, hseq, hworker⟩
      exact ⟨⟨by omega, hid, hepoch, hseq⟩, by omega, hworker⟩
    · rintro ⟨⟨_, hid, hepoch, hseq⟩, hle, hworker⟩
      exact ⟨by omega, hid, hepoch, hseq, hworker⟩
  | done id epoch leaseSeq =>
    simp only [RawRecord.payload, decodePayload, guard_iff, RawRecord.fits, true_and, sits_putFence,
      RawRecord.done.injEq]
  | expire id epoch leaseSeq =>
    simp only [RawRecord.payload, decodePayload, guard_iff, RawRecord.fits, true_and, sits_putFence,
      RawRecord.expire.injEq]
  | deadLetter id epoch =>
    simp only [RawRecord.payload, decodePayload, guard_iff, RawRecord.fits, true_and, sits_append,
      sits_putJobId, sits_putU32, length_putJobId, RawRecord.deadLetter.injEq]
    constructor
    · rintro ⟨hle, hid, hepoch⟩
      exact ⟨⟨by omega, hid⟩, hle, hepoch⟩
    · rintro ⟨⟨_, hid⟩, hle, hepoch⟩
      exact ⟨hle, hid, hepoch⟩
  | takeover id newEpoch newOwner =>
    simp only [RawRecord.payload, decodePayload, guard_iff, RawRecord.fits, true_and, sits_append,
      sits_putJobId, sits_putU32, sits_putEndpoint, List.length_append, length_putJobId,
      length_putU32, RawRecord.takeover.injEq, ← Nat.add_assoc]
    constructor
    · rintro ⟨hle, hid, hepoch, howner⟩
      exact ⟨⟨⟨by omega, hid⟩, by omega, hepoch⟩, hle, howner⟩
    · rintro ⟨⟨⟨_, hid⟩, _, hepoch⟩, hle, howner⟩
      exact ⟨hle, hid, hepoch, howner⟩

/-- A record is read under its own type only. -/
theorem decodePayload_type {type : UInt8} {r : RawRecord} (h : decodePayload type b off = some r) :
    type = r.payload.1 := by
  unfold decodePayload at h
  -- The two records with a job, the five transitions, and the types that are none.
  split at h
  iterate 2
    · rcases Option.map_eq_some_iff.mp h with ⟨_, _, rfl⟩
      rfl
  iterate 5
    · rw [guard_iff] at h
      rw [← h.2]
      rfl
  · cases h

/-- A record is accepted exactly where its bytes are. -/
theorem decodeRecord_iff (b : Bytes) (r : RawRecord) (lsn : UInt64) :
    decodeRecord b = some (r, lsn) ↔ r.fits ∧ encodeRecord r lsn <+: b := by
  rw [← sits_zero, encodeRecord, sits_append, sits_append, sits_putU8, sits_putU64,
    List.length_append, length_putU8, length_putU64, decodeRecord]
  by_cases hhead : b.length < 9
  · rw [if_pos hhead]
    constructor
    · intro h
      cases h
    · rintro ⟨_, ⟨_, hle, _⟩, _⟩
      omega
  rw [if_neg hhead, Option.map_eq_some_iff]
  constructor
  · rintro ⟨r', h, heq⟩
    rw [Prod.mk.injEq] at heq
    rcases heq with ⟨rfl, rfl⟩
    have htype := decodePayload_type h
    rw [htype, decodePayload_self] at h
    exact ⟨h.1, ⟨⟨by omega, htype⟩, by omega, rfl⟩, h.2⟩
  · rintro ⟨hfits, ⟨⟨_, htype⟩, _, hlsn⟩, hsits⟩
    refine ⟨r, ?_, by rw [Prod.mk.injEq]; exact ⟨rfl, hlsn⟩⟩
    change getU8 b 0 = r.payload.1 at htype
    rw [htype, decodePayload_self]
    exact ⟨hfits, hsits⟩

/-- A record whose strings are within the limits is read back with its sequence number, and no
    shorter prefix of its bytes is accepted; whatever is accepted starts with the encoding of
    what was read. -/
theorem records_round_trip (r : RawRecord) (lsn : UInt64) :
    (r.fits → decodeRecord (encodeRecord r lsn) = some (r, lsn) ∧
      ∀ p, p <+: encodeRecord r lsn → p ≠ encodeRecord r lsn → decodeRecord p = none) ∧
    ∀ b, decodeRecord b = some (r, lsn) → encodeRecord r lsn <+: b := by
  refine ⟨fun hfits => ?_, fun b h => ((decodeRecord_iff b r lsn).mp h).2⟩
  have hself := (decodeRecord_iff _ r lsn).mpr ⟨hfits, List.prefix_refl _⟩
  refine ⟨hself, fun p hp hne => ?_⟩
  -- What is read from the cut string would be read from the whole one.
  cases hcut : decodeRecord p with
  | none => rfl
  | some x =>
    rcases x with ⟨r', lsn'⟩
    rcases (decodeRecord_iff p r' lsn').mp hcut with ⟨hfits', hp'⟩
    have hwhole := (decodeRecord_iff _ r' lsn').mpr ⟨hfits', hp'.trans hp⟩
    rw [hself, Option.some.injEq, Prod.mk.injEq] at hwhole
    rcases hwhole with ⟨rfl, rfl⟩
    exact absurd (hp.eq_of_length_le hp'.length_le) hne

theorem records_round_trip_submit :
    let j : RawJob := { (default : RawJob) with idemKey := [1], url := [2, 3], state := 9 }
    (RawRecord.submit j).fits ∧
      decodeRecord (encodeRecord (.submit j) 7) = some (.submit j, 7) :=
  ⟨by decide, ((records_round_trip _ 7).1 (by decide)).1⟩

/-! ### Forwarded submits -/

/-- A submit whose strings are within the limits is read back at the owner. -/
theorem decodeParams_encodeParams (p : RawParams) (hkey : p.idemKey.length ≤ kMaxIdemKey)
    (hurl : p.url.length ≤ kMaxUrl) (hbody : p.body.length ≤ kMaxJobBody) :
    decodeParams (encodeParams p) = some p := by
  -- Every field sits where the fields before it end.
  have hsits : Sits (putStr p.idemKey ++ putStr p.url ++ putStr p.body ++ putU32 p.visibilityMs ++
      putU32 p.maxAttempts) (encodeParams p) 0 := sits_zero.mpr (List.prefix_refl _)
  rw [sits_append, sits_append, sits_append, sits_append, sits_putU32, sits_putU32] at hsits
  simp only [List.length_append, length_putU32, Nat.zero_add] at hsits
  rcases hsits with ⟨⟨⟨⟨hsk, hsu⟩, hsb⟩, _, hvis⟩, hlen, hmax⟩
  have h₁ := (getStr_iff (by decide) _ _).mpr ⟨hkey, rfl, hsk⟩
  have h₂ := (getStr_iff (by decide) _ _).mpr ⟨hurl, rfl, hsu⟩
  have h₃ := (getStr_iff (by decide) _ _).mpr ⟨hbody, rfl, hsb⟩
  rw [Nat.zero_add] at h₁
  unfold decodeParams
  simp only [h₁, h₂, h₃]
  rw [if_neg (by omega), hvis, hmax]

theorem length_encodeParams (p : RawParams) :
    (encodeParams p).length = 14 + p.idemKey.length + p.url.length + p.body.length := by
  simp only [encodeParams, List.length_append, length_putU32, length_putStr]
  omega

theorem length_putJob (j : RawJob) :
    (putJob j).length = 67 + j.idemKey.length + j.url.length + j.body.length := by
  rw [putJob_eq]
  simp only [List.length_append, length_putJobId, length_putStr, length_putFixed, kJobIdSize,
    kEndpointSize]
  omega

end Tautq
