import Tautq.Core.Wal
import Tautq.Theory.Codec

/-!
# Frames and Torn Tails

What a scan over a file finds. A file is a list of whole frames and, where a write
was cut short, the start of one more. The scan gives back the bodies of the whole
frames and stops where the torn one starts: the header of a torn frame, if it is
there, promises more bytes than the file has. No use is made of the checksum, which
can be any function. In a file of any other bytes the scan stops where no frame starts.

A crash can cut the file at any byte. What is left is again some of the frames and
a torn tail.

## Main definitions

* `Framable`: A body the log takes.
* `frames`: The bytes of a list of bodies.
* `Torn`: The start of a frame, short of the whole.

## Theorems

* `scanFrames_frames`: The scan finds the whole frames.
* `scan_is_clean_start`: What the scan of any file finds, and where it stops.
* `cut_frames`: A cut leaves some of the frames and a torn tail.
-/

namespace Tautq

/-- A body the log takes. -/
def Framable (body : Bytes) : Prop :=
  body ≠ [] ∧ body.length ≤ kMaxBody

section Crc

variable (crc : Bytes → UInt32)

/-- The bytes of a list of bodies. -/
def frames (bodies : List Bytes) : Bytes :=
  (bodies.map (frame crc)).flatten

/-- The start of a frame, short of the whole. -/
def Torn (tail : Bytes) : Prop :=
  ∃ body, Framable body ∧ tail <+: frame crc body ∧ tail.length < (frame crc body).length

end Crc

variable {crc : Bytes → UInt32}

@[simp] theorem length_frame (body : Bytes) :
    (frame crc body).length = kFrameHeader + body.length := by
  simp only [frame, kFrameHeader, List.length_append, length_putU32]

@[simp] theorem frames_nil : frames crc [] = [] := rfl

@[simp] theorem frames_cons (b : Bytes) (bs : List Bytes) :
    frames crc (b :: bs) = frame crc b ++ frames crc bs := by
  simp [frames]

@[simp] theorem frames_append (bs cs : List Bytes) :
    frames crc (bs ++ cs) = frames crc bs ++ frames crc cs := by
  simp [frames]

theorem length_le_frames (crc : Bytes → UInt32) (bodies : List Bytes) :
    bodies.length ≤ (frames crc bodies).length := by
  induction bodies with
  | nil => exact Nat.le_refl 0
  | cons b bs ih =>
    rw [frames_cons, List.length_append, length_frame, List.length_cons, kFrameHeader]
    omega

theorem frames_eq_nil {bodies : List Bytes} (h : frames crc bodies = []) : bodies = [] := by
  have hle := length_le_frames crc bodies
  rw [h] at hle
  exact List.length_eq_zero_iff.mp (Nat.le_zero.mp hle)

theorem torn_nil : Torn crc [] :=
  ⟨[0], ⟨by decide, by decide⟩, List.nil_prefix, by simp [kFrameHeader]⟩

theorem Torn.mono {tail t : Bytes} (h : Torn crc tail) (ht : t <+: tail) : Torn crc t := by
  rcases h with ⟨body, hbody, hpre, hlt⟩
  exact ⟨body, hbody, ht.trans hpre, Nat.lt_of_le_of_lt ht.length_le hlt⟩

/-- A write of a frame that was cut short leaves a torn tail. -/
theorem torn_take {body : Bytes} (hbody : Framable body) {k : Nat}
    (hk : k < (frame crc body).length) : Torn crc ((frame crc body).take k) :=
  ⟨body, hbody, List.take_prefix _ _, by rw [List.length_take]; omega⟩

/-! ### Scanning -/

/-- What sits after a given start. -/
theorem sits_of_eq (pre s rest : Bytes) : Sits s (pre ++ (s ++ rest)) pre.length := by
  constructor
  · simp
  · simp

/-- The two numbers in a frame's header. -/
theorem header_of_sits {data body : Bytes} {off : Nat} (hbody : Framable body)
    (h : Sits (putU32 (UInt32.ofNat body.length) ++ putU32 (crc body)) data off) :
    off + kFrameHeader ≤ data.length ∧ (getU32 data off).toNat = body.length ∧
      getU32 data (off + 4) = crc body := by
  rw [sits_append, sits_putU32, sits_putU32, length_putU32] at h
  rcases h with ⟨⟨_, hlen⟩, hle, hcrc⟩
  refine ⟨hle, ?_, hcrc⟩
  rw [hlen]
  have hmax := hbody.2
  rw [kMaxBody] at hmax
  exact UInt32.toNat_ofNat_of_lt' (by rw [UInt32.size]; omega)

/-- The scan stops at a torn frame. -/
theorem scanFrom_torn (pre : Bytes) {tail : Bytes} (h : Torn crc tail) (fuel : Nat) :
    scanFrom crc (pre ++ tail) fuel pre.length = ([], pre.length) := by
  cases fuel with
  | zero => rfl
  | succ fuel =>
    rcases h with ⟨body, hbody, hpre, hlt⟩
    rw [scanFrom]
    by_cases hshort : (pre ++ tail).length < pre.length + kFrameHeader
    · rw [if_pos hshort]
    rw [if_neg hshort]
    -- The header is there, and it promises more than there is.
    have hhead : Sits (putU32 (UInt32.ofNat body.length) ++ putU32 (crc body)) (pre ++ tail)
        pre.length := by
      have hsub : putU32 (UInt32.ofNat body.length) ++ putU32 (crc body) <+: tail := by
        refine List.prefix_of_prefix_length_le ?_ hpre ?_
        · exact ⟨body, rfl⟩
        · rw [List.length_append] at hshort
          simp only [kFrameHeader] at hshort
          simp only [List.length_append, length_putU32]
          omega
      rcases hsub with ⟨rest, rfl⟩
      exact sits_of_eq pre _ rest
    rcases header_of_sits hbody hhead with ⟨_, hlen, _⟩
    have hover : (pre ++ tail).length < pre.length + kFrameHeader + body.length := by
      rw [length_frame] at hlt
      rw [List.length_append]
      omega
    simp only [hlen]
    rw [if_pos (Or.inr (Or.inr hover))]

/-- A whole frame is taken, and the scan goes on behind it. -/
theorem scanFrom_frame (pre rest : Bytes) {b : Bytes} (hbody : Framable b) (fuel : Nat) :
    scanFrom crc (pre ++ (frame crc b ++ rest)) (fuel + 1) pre.length =
      (b :: (scanFrom crc (pre ++ (frame crc b ++ rest)) fuel (pre ++ frame crc b).length).1,
        (scanFrom crc (pre ++ (frame crc b ++ rest)) fuel (pre ++ frame crc b).length).2) := by
  have hsits := sits_of_eq pre (frame crc b) rest
  rw [List.length_append, length_frame, ← Nat.add_assoc]
  generalize pre ++ (frame crc b ++ rest) = data at hsits ⊢
  rw [frame, sits_append] at hsits
  rcases hsits with ⟨hhead, hle, htake⟩
  rcases header_of_sits hbody hhead with ⟨hlong, hlen, hcrc⟩
  simp only [List.length_append, length_putU32] at hle htake
  have hpos : b.length ≠ 0 := fun h => hbody.1 (List.length_eq_zero_iff.mp h)
  rw [scanFrom, if_neg (by omega)]
  simp only [hlen]
  rw [if_neg (by simp only [kFrameHeader]; have := hbody.2; omega)]
  have hread : (data.drop (pre.length + kFrameHeader)).take b.length = b := htake
  rw [hread, if_neg (by rw [hcrc]; exact fun h => h rfl)]

/-- The scan finds the whole frames from an offset on. -/
theorem scanFrom_frames {tail : Bytes} (ht : Torn crc tail) {bodies : List Bytes}
    (hb : ∀ b ∈ bodies, Framable b) (pre : Bytes) {fuel : Nat} (hfuel : bodies.length ≤ fuel) :
    scanFrom crc (pre ++ (frames crc bodies ++ tail)) fuel pre.length =
      (bodies, pre.length + (frames crc bodies).length) := by
  induction bodies generalizing pre fuel with
  | nil => simpa using scanFrom_torn pre ht fuel
  | cons b bs ih =>
    cases fuel with
    | zero => cases hfuel
    | succ fuel =>
      have hnext := ih (fun c hc => hb c (List.mem_cons_of_mem b hc)) (pre ++ frame crc b)
        (Nat.le_of_succ_le_succ hfuel)
      rw [List.append_assoc] at hnext
      rw [frames_cons, List.append_assoc, scanFrom_frame pre _ (hb b List.mem_cons_self), hnext]
      simp [Nat.add_assoc]

/-- The scan finds the whole frames of a file. -/
theorem scanFrames_frames {tail : Bytes} (ht : Torn crc tail) {bodies : List Bytes}
    (hb : ∀ b ∈ bodies, Framable b) : scanFrames crc (frames crc bodies ++ tail) =
      (bodies, (frames crc bodies).length) := by
  have hfuel : bodies.length ≤ (frames crc bodies ++ tail).length + 1 := by
    have := length_le_frames crc bodies
    rw [List.length_append]
    omega
  have h := scanFrom_frames ht hb [] hfuel
  simpa [scanFrames] using h

/-- Where the header's checks pass, a frame is there. -/
theorem frame_of_checks {pre rest : Bytes} {len : Nat}
    (hlen : (getU32 (pre ++ rest) pre.length).toNat = len) (hpos : len ≠ 0) (hmax : len ≤ kMaxBody)
    (hroom : pre.length + kFrameHeader + len ≤ (pre ++ rest).length)
    (hcrc : crc (((pre ++ rest).drop (pre.length + kFrameHeader)).take len) =
      getU32 (pre ++ rest) (pre.length + 4)) :
    ∃ b rest', Framable b ∧ rest = frame crc b ++ rest' := by
  have hbody : (((pre ++ rest).drop (pre.length + kFrameHeader)).take len).length = len := by
    rw [List.length_take, List.length_drop]
    omega
  generalize hb : ((pre ++ rest).drop (pre.length + kFrameHeader)).take len = b at hcrc hbody
  have hsits : Sits (frame crc b) (pre ++ rest) pre.length := by
    rw [kFrameHeader] at hroom hb
    rw [frame, sits_append, sits_append, sits_putU32, sits_putU32]
    simp only [List.length_append, length_putU32] at hroom ⊢
    refine ⟨⟨⟨by omega, ?_⟩, by omega, hcrc.symm⟩, ?_, ?_⟩
    · rw [hbody, ← hlen]
      exact UInt32.ofNat_toNat.symm
    · rw [List.length_append]
      omega
    · rw [hbody]
      exact hb
  have hpre : frame crc b <+: rest := by
    rw [← sits_zero]
    exact ⟨by simpa using hsits.1, by simpa using hsits.2⟩
  rcases hpre with ⟨rest', rfl⟩
  exact ⟨b, rest', ⟨fun h => hpos (by rw [← hbody, h]; rfl), by omega⟩, rfl⟩

/-- One round of the scan: a frame is there, or it stops. -/
theorem scanFrom_round (pre rest : Bytes) (fuel : Nat) :
    (∃ b rest', Framable b ∧ rest = frame crc b ++ rest') ∨
      scanFrom crc (pre ++ rest) (fuel + 1) pre.length = ([], pre.length) := by
  rw [scanFrom]
  by_cases hshort : (pre ++ rest).length < pre.length + kFrameHeader
  · rw [if_pos hshort]
    exact Or.inr rfl
  rw [if_neg hshort]
  generalize hlen : (getU32 (pre ++ rest) pre.length).toNat = len
  dsimp only
  by_cases hbad : len = 0 ∨ kMaxBody < len ∨ (pre ++ rest).length < pre.length + kFrameHeader + len
  · rw [if_pos hbad]
    exact Or.inr rfl
  rw [if_neg hbad]
  by_cases hcrc : crc (((pre ++ rest).drop (pre.length + kFrameHeader)).take len) ≠
      getU32 (pre ++ rest) (pre.length + 4)
  · rw [if_pos hcrc]
    exact Or.inr rfl
  · left
    exact frame_of_checks hlen (by omega) (by omega) (by omega) (not_not.mp hcrc)

/-- The scan stops only where no frame starts. -/
theorem scanFrom_sound (pre rest : Bytes) {fuel : Nat} (hfuel : rest.length < fuel) :
    ∃ bodies tail, (∀ b ∈ bodies, Framable b) ∧ rest = frames crc bodies ++ tail ∧
      (∀ b, Framable b → ¬ frame crc b <+: tail) ∧
      scanFrom crc (pre ++ rest) fuel pre.length =
      (bodies, pre.length + (frames crc bodies).length) := by
  induction fuel generalizing pre rest with
  | zero => omega
  | succ fuel ih =>
    by_cases hframe : ∃ b rest', Framable b ∧ rest = frame crc b ++ rest'
    · rcases hframe with ⟨b, rest', hb, rfl⟩
      -- A frame is never empty, so the fuel left is enough for what is behind it.
      rw [List.length_append, length_frame, kFrameHeader] at hfuel
      rcases ih (pre ++ frame crc b) rest' (by omega) with ⟨bs, tail, hbs, rfl, hstop, hscan⟩
      refine ⟨b :: bs, tail, List.forall_mem_cons.mpr ⟨hb, hbs⟩, by simp, hstop, ?_⟩
      rw [List.append_assoc] at hscan
      rw [scanFrom_frame pre _ hb, hscan]
      simp [Nat.add_assoc]
    · refine ⟨[], rest, by simp, rfl, fun b hb => ?_, ?_⟩
      · rintro ⟨rest', rfl⟩
        exact hframe ⟨b, rest', hb, rfl⟩
      · exact (scanFrom_round pre rest fuel).resolve_left hframe

/-- The scan of any file: the bodies of its clean start, and where that ends. Scanning the
    clean start alone finds the same, and so does the scan of whole frames with the start of
    one more behind them. -/
theorem scan_is_clean_start (crc : Bytes → UInt32) (data : Bytes) :
    (scanFrames crc data).2 ≤ data.length ∧
      (∀ b ∈ (scanFrames crc data).1, Framable b) ∧
      data.take (scanFrames crc data).2 = frames crc (scanFrames crc data).1 ∧
      (∀ b, Framable b → ¬ frame crc b <+: data.drop (scanFrames crc data).2) ∧
      scanFrames crc (data.take (scanFrames crc data).2) = scanFrames crc data ∧
      ∀ bodies tail, (∀ b ∈ bodies, Framable b) → Torn crc tail →
        scanFrames crc (frames crc bodies ++ tail) = (bodies, (frames crc bodies).length) := by
  rcases @scanFrom_sound crc [] data _ (Nat.lt_succ_self _) with
    ⟨bodies, tail, hb, hdata, hstop, hscan⟩
  have hfound : scanFrames crc data = (bodies, (frames crc bodies).length) := by
    simpa [scanFrames] using hscan
  have htake : data.take (frames crc bodies).length = frames crc bodies := by
    rw [hdata]
    exact List.take_left
  have hdrop : data.drop (frames crc bodies).length = tail := by
    rw [hdata]
    exact List.drop_left
  have hagain : scanFrames crc (frames crc bodies) = (bodies, (frames crc bodies).length) := by
    have h := @scanFrames_frames crc [] torn_nil bodies hb
    rwa [List.append_nil] at h
  rw [hfound, htake, hdrop]
  refine ⟨?_, hb, rfl, hstop, hagain, fun bodies' tail' hb' ht' => scanFrames_frames ht' hb'⟩
  rw [hdata, List.length_append]
  omega

/-- Two frames and five bytes of a third. -/
theorem scan_is_clean_start_torn :
    scanFrames (fun _ => 7) (frames (fun _ => 7) [[1], [2, 3]] ++ (frame (fun _ => 7) [4]).take 5) =
      ([[1], [2, 3]], 19) :=
  (scan_is_clean_start (fun _ => 7) []).2.2.2.2.2 [[1], [2, 3]] _
    (by simp [Framable, kMaxBody])
    (torn_take ⟨by decide, by decide⟩ (by simp [kFrameHeader]))

/-! ### Cuts -/

/-- A cut leaves some of the frames and a torn tail: at least those that are wholly before
    it. -/
theorem cut_frames {tail : Bytes} (ht : Torn crc tail) {bodies : List Bytes}
    (hb : ∀ b ∈ bodies, Framable b) {p : Bytes} (hp : p <+: frames crc bodies ++ tail) :
    ∃ m ≤ bodies.length, ∃ tail', Torn crc tail' ∧ p = frames crc (bodies.take m) ++ tail' ∧
      ∀ j ≤ bodies.length, (frames crc (bodies.take j)).length ≤ p.length → j ≤ m := by
  induction bodies generalizing p with
  | nil =>
    refine ⟨0, Nat.le_refl 0, p, ht.mono ?_, by simp, fun j hj _ => hj⟩
    simpa using hp
  | cons b bs ih =>
    rw [frames_cons, List.append_assoc] at hp
    by_cases hlt : p.length < (frame crc b).length
    · -- The cut is inside the first frame.
      have hpre : p <+: frame crc b :=
        List.prefix_of_prefix_length_le hp (List.prefix_append _ _) (Nat.le_of_lt hlt)
      refine ⟨0, Nat.zero_le _, p, ⟨b, hb b List.mem_cons_self, hpre, hlt⟩, by simp,
        fun j _ hj => ?_⟩
      cases j with
      | zero => exact Nat.le_refl 0
      | succ j =>
        rw [List.take_succ_cons, frames_cons, List.length_append] at hj
        omega
    · have hpre : frame crc b <+: p :=
        List.prefix_of_prefix_length_le (List.prefix_append _ _) hp (Nat.le_of_not_lt hlt)
      rcases hpre with ⟨q, rfl⟩
      rcases ih (fun c hc => hb c (List.mem_cons_of_mem b hc))
        ((List.prefix_append_right_inj _).mp hp) with ⟨m, hm, tail', ht', hq, hmax⟩
      refine ⟨m + 1, Nat.succ_le_succ hm, tail', ht', ?_, fun j hj hlen => ?_⟩
      · rw [List.take_succ_cons, frames_cons, List.append_assoc, hq]
      · cases j with
        | zero => exact Nat.zero_le _
        | succ j =>
          rw [List.take_succ_cons, frames_cons, List.length_append, List.length_append] at hlen
          exact Nat.succ_le_succ (hmax j (Nat.le_of_succ_le_succ hj) (by omega))

end Tautq
