import Mathlib.Data.List.Sort
import Tautq.Theory.Frames

/-!
# The Segments of a Directory

How a log lies in a directory. The bodies are split into chunks, one per segment,
and a segment is named by the number of records before it. Every segment but the
last is closed: its frames are whole and synced, and it has at least one. The last
one can end in a torn tail and can have bytes that are not synced.

Since closed segments are not empty, their names increase; sorting the names as
strings gives the chunks in order.

A crash keeps every closed segment and cuts the last one, or takes it away where its
entry was not synced. Either way a prefix of the bodies is left.

Entries come in two kinds of states. In a strict one every segment's entry is
synced. In a loose one an entry can still go back to nothing, as it can after a
rotation was cut short; a crash is then assumed to keep the files that have synced
bytes.

## Main definitions

* `segs`: The segments of chunks of bodies.
* `Lays`: A directory has the given chunks.
* `Carries`: A directory replays to a list of bodies, of which a number is durable.

## Theorems

* `segmentName_lt`: Names are ordered as numbers.
* `Lays.segments`: The names of a directory, sorted.
* `Lays.sync`, `Lays.write`, `Lays.cut`, `Lays.next`, `Lays.settle`: What the log's
  operations do to its directory.
* `Carries.crash`: A crash leaves a prefix of the bodies, with the durable ones.
-/

namespace Tautq

/-! ### Names -/

theorem segmentName_lt {n m : Nat} (h : n < m) (hm : m < 10 ^ 20) :
    segmentName n < segmentName m := by
  rw [segmentName, segmentName, List.append_assoc, List.append_assoc]
  exact List.append_left_lt (append_lt_append (pad_lt h hm) (by simp) _ _)

theorem segmentName_inj {n m : Nat} (hn : n < 10 ^ 20) (hm : m < 10 ^ 20)
    (h : segmentName n = segmentName m) : n = m := by
  rcases Nat.lt_trichotomy n m with hlt | heq | hgt
  · exact absurd (h ▸ segmentName_lt hlt hm) (List.lt_irrefl _)
  · exact heq
  · exact absurd (h ▸ segmentName_lt hgt hn) (List.lt_irrefl _)

@[simp] theorem isSegment_segmentName (n : Nat) : isSegment (segmentName n) = true := by
  have hlen : (segmentName n).length = 28 := by simp [segmentName, text]
  have htake : (segmentName n).take 4 = text ['w', 'a', 'l', '-'] := by
    simp [segmentName, text]
  have hdrop : (segmentName n).drop 24 = text ['.', 'l', 'o', 'g'] := by
    rw [segmentName, List.drop_append]
    simp [text]
  simp [isSegment, hlen, htake, hdrop]

theorem isSegment_genName (g : Nat) : isSegment (genName g) = false := by
  have hlen : (genName g).length = 28 := by simp [genName, genPrefix, text]
  have hdrop : (genName g).drop 24 ≠ text ['.', 'l', 'o', 'g'] := by
    intro h
    -- The last byte is a digit.
    have hmem : UInt8.ofNat 103 ∈ (genName g).drop 24 := by rw [h]; decide
    have hsub : (genName g).drop 24 = (pad 20 g).drop 16 := by
      rw [genName, List.drop_append]
      simp [genPrefix, text]
    rw [hsub] at hmem
    have := isDigit_of_mem_pad (List.mem_of_mem_drop hmem)
    revert this
    decide
  simp [isSegment, hlen, hdrop]

/-! ### Chunks -/

/-- The segments of chunks of bodies: the number of the first record, and the bodies. -/
def segs (n : Nat) : List (List Bytes) → List (Nat × List Bytes)
  | [] => []
  | c :: cs => (n, c) :: segs (n + c.length) cs

theorem segs_append (n : Nat) (cs ds : List (List Bytes)) :
    segs n (cs ++ ds) = segs n cs ++ segs (n + cs.flatten.length) ds := by
  induction cs generalizing n with
  | nil => simp [segs]
  | cons c cs ih => simp [segs, ih, Nat.add_assoc]

theorem mem_segs {n : Nat} {cs : List (List Bytes)} {x : Nat × List Bytes} (h : x ∈ segs n cs) :
    x.2 ∈ cs ∧ n ≤ x.1 ∧ x.1 + x.2.length ≤ n + cs.flatten.length := by
  induction cs generalizing n with
  | nil => cases h
  | cons c cs ih =>
    rw [List.flatten_cons, List.length_append]
    rcases List.mem_cons.mp h with rfl | h
    · exact ⟨List.mem_cons_self, le_refl n, by simp only; omega⟩
    · rcases ih h with ⟨hmem, hle, hend⟩
      exact ⟨List.mem_cons_of_mem c hmem, by omega, by omega⟩

theorem sum_segs (n : Nat) (cs : List (List Bytes)) :
    ((segs n cs).map (fun x => x.2.length)).sum = cs.flatten.length := by
  induction cs generalizing n with
  | nil => rfl
  | cons c cs ih => simp [segs, ih]

/-- A closed segment starts before the end, since it has a record. -/
theorem start_lt {n : Nat} {cs : List (List Bytes)} (hfull : ∀ c ∈ cs, c ≠ [])
    {x : Nat × List Bytes} (h : x ∈ segs n cs) : x.1 < n + cs.flatten.length := by
  rcases mem_segs h with ⟨hmem, _, hend⟩
  have hpos := List.length_pos_iff.mpr (hfull x.2 hmem)
  omega

theorem segs_pairwise (n : Nat) {cs : List (List Bytes)} (hfull : ∀ c ∈ cs, c ≠ []) :
    (segs n cs).Pairwise (fun x y => x.1 < y.1) := by
  induction cs generalizing n with
  | nil => exact List.Pairwise.nil
  | cons c cs ih =>
    refine List.pairwise_cons.mpr ⟨fun y hy => ?_,
      ih _ (fun d hd => hfull d (List.mem_cons_of_mem c hd))⟩
    have hpos := List.length_pos_iff.mpr (hfull c List.mem_cons_self)
    have hle := (mem_segs hy).2.1
    simp only
    omega

/-! ### Layouts -/

/-- What an entry can go back to: nothing but nothing, and in a strict state not even
    that. -/
def Solid (strict : Bool) (past : List (Option File)) : Prop :=
  (∀ v ∈ past, v = none) ∧ (strict = true → past = [])

theorem solid_nil (strict : Bool) : Solid strict [] :=
  ⟨by simp, fun _ => rfl⟩

/-- An entry that is unused and has been since its directory was synced. -/
def Unused (e : Entry File) : Prop :=
  ∀ v ∈ e.versions, v = none

/-- A directory without segments. -/
def Bare (d : Folder File) : Prop :=
  ∀ n, isSegment n = true → Unused (d.entry n)

section Crc

variable (crc : Bytes → UInt32)

/-- A directory has closed segments with the given chunks, and a last one, whose file ends in
    a torn tail. -/
structure Lays (strict : Bool) (d : Folder File) (closed : List (List Bytes)) (last : List Bytes)
    (file : File) (tail : Bytes) : Prop where
  full : ∀ c ∈ closed, c ≠ []
  good : ∀ b ∈ closed.flatten ++ last, Framable b
  few : closed.flatten.length + last.length < 2 ^ 64
  shut : ∀ x ∈ segs 0 closed, ∃ past, Solid strict past ∧
    d.entry (segmentName x.1) = ⟨some { safe := frames crc x.2 }, past⟩
  final : ∃ past, Solid strict past ∧
    d.entry (segmentName closed.flatten.length) = ⟨some file, past⟩
  data : file.data = frames crc last ++ tail
  torn : Torn crc tail
  only : ∀ n, isSegment n = true → n ≠ segmentName closed.flatten.length →
    (∀ x ∈ segs 0 closed, n ≠ segmentName x.1) → Unused (d.entry n)

/-- A directory replays to a list of bodies, and at least `durable` of them survive a crash. -/
inductive Carries (strict : Bool) (d : Folder File) : List Bytes → Nat → Prop where
  | bare (h : Bare d) : Carries strict d [] 0
  | lays {closed : List (List Bytes)} {last : List Bytes} {file : File} {tail : Bytes}
      (h : Lays crc strict d closed last file tail) (m : Nat) (hm : m ≤ last.length)
      (hsafe : (frames crc (last.take m)).length ≤ file.safe.length) {durable : Nat}
      (hd : durable ≤ closed.flatten.length + m) :
      Carries strict d (closed.flatten ++ last) durable

end Crc

namespace Lays

variable {crc : Bytes → UInt32} {strict : Bool} {d d' : Folder File} {closed : List (List Bytes)}
  {last : List Bytes} {file : File} {tail : Bytes}

/-- Only the segments' entries matter. -/
theorem congr (h : Lays crc strict d closed last file tail)
    (hd : ∀ n, isSegment n = true → d'.entry n = d.entry n) :
    Lays crc strict d' closed last file tail where
  full := h.full
  good := h.good
  few := h.few
  shut := fun x hx => by
    rw [hd _ (isSegment_segmentName _)]
    exact h.shut x hx
  final := by
    rw [hd _ (isSegment_segmentName _)]
    exact h.final
  data := h.data
  torn := h.torn
  only := fun n hn hlast hshut => by
    rw [hd n hn]
    exact h.only n hn hlast hshut

theorem get_final (h : Lays crc strict d closed last file tail) :
    d.get (segmentName closed.flatten.length) = some file := by
  rcases h.final with ⟨past, _, he⟩
  rw [Folder.get_eq, he]

theorem get_shut (h : Lays crc strict d closed last file tail) {x : Nat × List Bytes}
    (hx : x ∈ segs 0 closed) : d.get (segmentName x.1) = some { safe := frames crc x.2 } := by
  rcases h.shut x hx with ⟨past, _, he⟩
  rw [Folder.get_eq, he]

/-- The last segment has a name of its own. -/
theorem ne_final (h : Lays crc strict d closed last file tail) {x : Nat × List Bytes}
    (hx : x ∈ segs 0 closed) : segmentName x.1 ≠ segmentName closed.flatten.length := by
  intro heq
  have hlt := start_lt h.full hx
  have hfew := h.few
  have := segmentName_inj (by omega) (by omega) heq
  omega

/-- The names increase. -/
theorem names_lt (h : Lays crc strict d closed last file tail) :
    ((segs 0 closed).map (fun x => segmentName x.1) ++
      [segmentName closed.flatten.length]).Pairwise (· < ·) := by
  have hfew := h.few
  rw [List.pairwise_append]
  refine ⟨?_, List.pairwise_singleton _ _, fun a ha b hb => ?_⟩
  · rw [List.pairwise_map]
    refine (segs_pairwise 0 h.full).imp_of_mem (fun {x y} _ hy hxy => ?_)
    have := start_lt h.full hy
    exact segmentName_lt hxy (by omega)
  · rcases List.mem_map.mp ha with ⟨x, hx, rfl⟩
    rw [List.mem_singleton.mp hb]
    have := start_lt h.full hx
    exact segmentName_lt (by omega) (by omega)

theorem names_nodup (h : Lays crc strict d closed last file tail) :
    ((segs 0 closed).map (fun x => segmentName x.1) ++
    [segmentName closed.flatten.length]).Nodup := by
  refine h.names_lt.imp (fun hab heq => ?_)
  rw [heq] at hab
  exact List.lt_irrefl _ hab

/-- The names of a directory, sorted; other names among them do not matter. -/
theorem segments (h : Lays crc strict d closed last file tail) {extra : List Name}
    (hextra : ∀ n ∈ extra, isSegment n = false) : segmentsOf (d.names ++ extra) =
      (segs 0 closed).map (fun x => segmentName x.1) ++ [segmentName closed.flatten.length] := by
  -- The names in use are those of the segments, each once.
  have hmem : ∀ n, n ∈ (d.names ++ extra).filter isSegment ↔ n ∈ (segs 0 closed).map
      (fun x => segmentName x.1) ++ [segmentName closed.flatten.length] := by
    intro n
    rw [List.mem_filter, List.mem_append, Folder.mem_names, List.mem_append, List.mem_map,
      List.mem_singleton]
    constructor
    · rintro ⟨hn | hn, hseg⟩
      · by_contra hnot
        have hunused := h.only n hseg (fun heq => hnot (Or.inr heq))
          (fun x hx heq => hnot (Or.inl ⟨x, hx, heq.symm⟩)) (d.get n) List.mem_cons_self
        rw [hunused] at hn
        cases hn
      · rw [hextra n hn] at hseg
        cases hseg
    · rintro (⟨x, hx, rfl⟩ | rfl)
      · exact ⟨Or.inl (by rw [h.get_shut hx]; rfl), isSegment_segmentName _⟩
      · exact ⟨Or.inl (by rw [h.get_final]; rfl), isSegment_segmentName _⟩
  have hnodup : ((d.names ++ extra).filter isSegment).Nodup := by
    have hnil : extra.filter isSegment = [] := by
      rw [List.filter_eq_nil_iff]
      exact fun n hn => by rw [hextra n hn]; decide
    rw [List.filter_append, hnil, List.append_nil]
    exact d.nodup_names.filter _
  have hperm := (List.perm_ext_iff_of_nodup hnodup h.names_nodup).mpr hmem
  exact ((List.perm_insertionSort _ _).trans hperm).eq_of_pairwise'
    (List.pairwise_insertionSort _ _) (h.names_lt.imp List.le_of_lt)

/-- The records are no more than the bytes of the directory, also after a change to the last
    file. -/
theorem count_le_bytes (h : Lays crc strict d closed last file tail) (f : File → File)
    {last' : List Bytes} {tail' : Bytes} (hdata : (f file).data = frames crc last' ++ tail') :
    closed.flatten.length + last'.length ≤
      (d.edit (segmentName closed.flatten.length) f).bytes := by
  have hget : ∀ x ∈ segs 0 closed, (d.edit (segmentName closed.flatten.length) f).get
      (segmentName x.1) = some { safe := frames crc x.2 } := by
    intro x hx
    rw [Folder.get_edit, if_neg (h.ne_final hx), h.get_shut hx]
  have hfinal :
      (d.edit (segmentName closed.flatten.length) f).get (segmentName closed.flatten.length) =
      some (f file) := by
    rw [Folder.get_edit, if_pos rfl, h.get_final]
    rfl
  refine le_trans ?_ (Folder.sum_le_bytes _ h.names_nodup (fun n hn => ?_))
  · rw [List.map_append, List.sum_append, List.map_map, List.map_singleton, List.sum_singleton]
    refine Nat.add_le_add ?_ ?_
    · refine le_trans (sum_segs 0 closed).ge (List.sum_le_sum (fun x hx => ?_))
      simp only [Function.comp_apply, Folder.size, hget x hx, Option.map_some, Option.getD_some,
        File.data, List.append_nil]
      exact length_le_frames crc x.2
    · simp only [Folder.size, hfinal, Option.map_some, Option.getD_some, hdata, List.length_append]
      have := length_le_frames crc last'
      omega
  · rcases List.mem_append.mp hn with hn | hn
    · rcases List.mem_map.mp hn with ⟨x, hx, rfl⟩
      rw [hget x hx]
      rfl
    · rw [List.mem_singleton.mp hn, hfinal]
      rfl

/-! ### Operations -/

theorem weaken (h : Lays crc strict d closed last file tail) :
    Lays crc false d closed last file tail where
  full := h.full
  good := h.good
  few := h.few
  shut := fun x hx => by
    rcases h.shut x hx with ⟨past, hpast, he⟩
    exact ⟨past, ⟨hpast.1, by simp⟩, he⟩
  final := by
    rcases h.final with ⟨past, hpast, he⟩
    exact ⟨past, ⟨hpast.1, by simp⟩, he⟩
  data := h.data
  torn := h.torn
  only := h.only

/-- A change to the last file. -/
theorem refile (h : Lays crc strict d closed last file tail) (f : File → File) {last' : List Bytes}
    {tail' : Bytes} (hgood : ∀ b ∈ last', Framable b)
    (hfew : closed.flatten.length + last'.length < 2 ^ 64)
    (hdata : (f file).data = frames crc last' ++ tail') (htorn : Torn crc tail') :
    Lays crc strict (d.edit (segmentName closed.flatten.length) f) closed last' (f file) tail' where
  full := h.full
  good := fun b hb => by
    rcases List.mem_append.mp hb with hb | hb
    · exact h.good b (List.mem_append_left _ hb)
    · exact hgood b hb
  few := hfew
  shut := fun x hx => by
    rw [Folder.entry_edit, if_neg (h.ne_final hx)]
    exact h.shut x hx
  final := by
    rcases h.final with ⟨past, hpast, he⟩
    refine ⟨past, hpast, ?_⟩
    rw [Folder.entry_edit, if_pos rfl, h.get_final, he]
    rfl
  data := hdata
  torn := htorn
  only := fun n hn hlast hshut => by
    rw [Folder.entry_edit, if_neg hlast]
    exact h.only n hn hlast hshut

theorem sync (h : Lays crc strict d closed last file tail) :
    Lays crc strict (d.edit (segmentName closed.flatten.length) File.sync) closed last
    file.sync tail :=
  h.refile File.sync (fun b hb => h.good b (List.mem_append_right _ hb)) h.few
    (by rw [File.data_sync, h.data]) h.torn

/-- A whole frame is written. -/
theorem write (h : Lays crc strict d closed last file []) {body : Bytes} (hbody : Framable body)
    (hfew : closed.flatten.length + (last.length + 1) < 2 ^ 64) :
    Lays crc strict (d.edit (segmentName closed.flatten.length) (File.append (frame crc body)))
    closed
      (last ++ [body]) (file.append (frame crc body)) [] := by
  refine h.refile _ (fun b hb => ?_) (by simpa using hfew) ?_ torn_nil
  · rcases List.mem_append.mp hb with hb | hb
    · exact h.good b (List.mem_append_right _ hb)
    · rw [List.mem_singleton.mp hb]
      exact hbody
  · rw [File.data_append, h.data]
    simp

/-- Part of a frame is written. -/
theorem cut (h : Lays crc strict d closed last file []) {body : Bytes}
    (hbody : Framable body) {k : Nat} (hk : k < (frame crc body).length) :
    Lays crc strict
    (d.edit (segmentName closed.flatten.length) (File.append ((frame crc body).take k)))
      closed last (file.append ((frame crc body).take k)) ((frame crc body).take k) := by
  refine h.refile _ (fun b hb => h.good b (List.mem_append_right _ hb)) h.few ?_
    (torn_take hbody hk)
  rw [File.data_append, h.data]
  simp

/-- The torn tail is cut away. -/
theorem trim (h : Lays crc strict d closed last file tail) :
    Lays crc strict
    (d.edit (segmentName closed.flatten.length) (File.truncate (frames crc last).length))
      closed last (file.truncate (frames crc last).length) [] := by
  refine h.refile _ (fun b hb => h.good b (List.mem_append_right _ hb)) h.few ?_ torn_nil
  rw [File.data_truncate, h.data, List.append_nil, List.take_left]

theorem segs_concat (closed : List (List Bytes)) (last : List Bytes) :
    segs 0 (closed ++ [last]) = segs 0 closed ++ [(closed.flatten.length, last)] := by
  rw [segs_append, Nat.zero_add]
  rfl

/-- The name of the next segment is past those in use. -/
theorem next_ne (h : Lays crc strict d closed last file tail) (hlast : last ≠ [])
    {x : Nat × List Bytes} (hx : x ∈ segs 0 (closed ++ [last])) :
    segmentName x.1 ≠ segmentName (closed.flatten.length + last.length) := by
  intro heq
  have hpos := List.length_pos_iff.mpr hlast
  have hfew := h.few
  have hle : x.1 ≤ closed.flatten.length := by
    rw [segs_concat] at hx
    rcases List.mem_append.mp hx with hx | hx
    · have := start_lt h.full hx
      omega
    · rw [List.mem_singleton.mp hx]
  have := segmentName_inj (by omega) (by omega) heq
  omega

theorem next_unused (h : Lays crc strict d closed last file tail) (hlast : last ≠ []) :
    Unused (d.entry (segmentName (closed.flatten.length + last.length))) := by
  refine h.only _ (isSegment_segmentName _) (fun heq => ?_) (fun x hx heq => ?_)
  · exact h.next_ne hlast (x := (closed.flatten.length, last)) (by rw [segs_concat]; simp) heq.symm
  · exact h.next_ne hlast (by rw [segs_concat]; exact List.mem_append_left _ hx) heq.symm

/-- The last segment is closed and the next one is created; its entry is not synced yet. -/
theorem next (h : Lays crc strict d closed last file []) (hlast : last ≠ [])
    (hloose : file.loose = []) :
    Lays crc false (d.put (segmentName (closed.flatten.length + last.length)) (some {}))
      (closed ++ [last]) [] {} [] := by
  have hflat : (closed ++ [last]).flatten = closed.flatten ++ last := by simp
  have hlen : (closed ++ [last]).flatten.length = closed.flatten.length + last.length := by
    rw [hflat, List.length_append]
  have hfile : file = { safe := frames crc last } := by
    have hdata := h.data
    rw [File.data, hloose, List.append_nil, List.append_nil] at hdata
    rw [← hdata, ← hloose]
  have hfull : ∀ c ∈ closed ++ [last], c ≠ [] := by
    intro c hc
    rcases List.mem_append.mp hc with hc | hc
    · exact h.full c hc
    · rw [List.mem_singleton.mp hc]
      exact hlast
  refine ⟨hfull, ?_, by rw [hlen]; exact h.few, fun x hx => ?_, ?_, rfl, torn_nil, ?_⟩
  · rw [hflat, List.append_nil]
    exact h.good
  · rw [Folder.entry_put, if_neg (h.next_ne hlast hx)]
    rw [segs_concat] at hx
    rcases List.mem_append.mp hx with hx | hx
    · exact h.weaken.shut x hx
    · rw [List.mem_singleton.mp hx, ← hfile]
      exact h.weaken.final
  · rw [hlen]
    exact ⟨_, ⟨h.next_unused hlast, by simp⟩, by rw [Folder.entry_put, if_pos rfl]⟩
  · intro n hn hne hshut
    rw [hlen] at hne
    rw [segs_concat] at hshut
    rw [Folder.entry_put, if_neg hne]
    exact h.only n hn (hshut (closed.flatten.length, last) (by simp))
      (fun x hx => hshut x (List.mem_append_left _ hx))

/-- The first segment of an empty directory is created. -/
theorem first (h : Bare d) : Lays crc false (d.put (segmentName 0) (some {})) [] [] {} [] where
  full := by simp
  good := by simp
  few := by simp
  shut := by simp [segs]
  final := by
    refine ⟨_, ⟨?_, by simp⟩, by rw [Folder.entry_put]; exact if_pos rfl⟩
    exact h _ (isSegment_segmentName _)
  data := rfl
  torn := torn_nil
  only := fun n hn hne _ => by
    rw [Folder.entry_put, if_neg (show n ≠ segmentName 0 from hne)]
    exact h n hn

/-- Once the directory is synced the state is strict. -/
theorem settle (h : Lays crc strict d closed last file tail) :
    Lays crc true d.settle closed last file tail where
  full := h.full
  good := h.good
  few := h.few
  shut := fun x hx => by
    rcases h.shut x hx with ⟨past, _, he⟩
    refine ⟨[], solid_nil _, ?_⟩
    rw [Folder.entry_settle, he]
  final := by
    rcases h.final with ⟨past, _, he⟩
    refine ⟨[], solid_nil _, ?_⟩
    rw [Folder.entry_settle, he]
  data := h.data
  torn := h.torn
  only := fun n hn hlast hshut v hv => by
    rw [Folder.entry_settle] at hv
    rw [List.mem_singleton.mp hv]
    exact h.only n hn hlast hshut _ List.mem_cons_self

end Lays

/-! ### Crashes -/

section Crash

variable {crc : Bytes → UInt32} {strict : Bool} {d : Folder File} {l : Loss} {path : List Name}

/-- A crash keeps the files that have synced bytes. -/
def KeepsSynced (l : Loss) (path : List Name) (d : Folder File) : Prop :=
  ∀ n f, d.get n = some f → f.safe ≠ [] → (d.entry n).pick (l.version (path ++ [n])) = some f

theorem Unused.crash {n : Name} (h : Unused (d.entry n)) : Unused ((d.crash l path).entry n) := by
  intro v hv
  rw [Folder.entry_crash] at hv
  rw [List.mem_singleton.mp hv, h _ (Entry.pick_mem _ _)]
  rfl

theorem Bare.crash (h : Bare d) : Bare (d.crash l path) :=
  fun n hn => (h n hn).crash

namespace Lays

variable {closed : List (List Bytes)} {last : List Bytes} {file : File} {tail : Bytes}

/-- A crash leaves the closed segments as they are. -/
theorem shut_crash (h : Lays crc strict d closed last file tail)
    (hkeep : strict = false → KeepsSynced l path d) {x : Nat × List Bytes}
    (hx : x ∈ segs 0 closed) :
    (d.crash l path).entry (segmentName x.1) = ⟨some { safe := frames crc x.2 }, []⟩ := by
  rcases h.shut x hx with ⟨past, hpast, he⟩
  have hne : frames crc x.2 ≠ [] := fun hnil => h.full x.2 (mem_segs hx).1 (frames_eq_nil hnil)
  have hpick : (d.entry (segmentName x.1)).pick (l.version (path ++ [segmentName x.1])) =
      some { safe := frames crc x.2 } := by
    cases hs : strict with
    | true => rw [he, hpast.2 hs, Entry.pick_settled]
    | false => exact hkeep hs _ _ (h.get_shut hx) hne
  rw [Folder.entry_crash, hpick]
  simp [File.lose]

/-- Where the last segment's entry is gone, the one before it is the last. -/
theorem crash_gone (h : Lays crc strict d closed last file tail)
    (hkeep : strict = false → KeepsSynced l path d)
    (hgone : (d.entry (segmentName closed.flatten.length)).pick
      (l.version (path ++ [segmentName closed.flatten.length])) = none) :
    Carries crc strict (d.crash l path) closed.flatten closed.flatten.length := by
  have hunused : Unused ((d.crash l path).entry (segmentName closed.flatten.length)) := by
    intro v hv
    rw [Folder.entry_crash, hgone] at hv
    exact List.mem_singleton.mp hv
  rcases List.eq_nil_or_concat' closed with rfl | ⟨init, c, rfl⟩
  · refine .bare (fun n hn => ?_)
    by_cases hne : n = segmentName 0
    · rw [hne]
      exact hunused
    · exact (h.only n hn hne (by simp [segs])).crash
  · have hflat : (init ++ [c]).flatten = init.flatten ++ c := by simp
    have hsegs := segs_concat init c
    have hfew := h.few
    rw [hflat, List.length_append] at hfew
    have hlays : Lays crc strict (d.crash l path) init c { safe := frames crc c } [] :=
      { full := fun c' hc' => h.full c' (List.mem_append_left _ hc')
        good := fun b hb => h.good b (List.mem_append_left _ (by rw [hflat]; exact hb))
        few := by omega
        shut := fun x hx => ⟨[], solid_nil _,
          h.shut_crash hkeep (by rw [hsegs]; exact List.mem_append_left _ hx)⟩
        final := ⟨[], solid_nil _, h.shut_crash hkeep (x := (init.flatten.length, c))
          (by rw [hsegs]; simp)⟩
        data := by simp [File.data]
        torn := torn_nil
        only := fun n hn hne hshut => by
          by_cases hlast : n = segmentName (init ++ [c]).flatten.length
          · rw [hlast]
            exact hunused
          · refine (h.only n hn hlast (fun x hx => ?_)).crash
            rw [hsegs] at hx
            rcases List.mem_append.mp hx with hx | hx
            · exact hshut x hx
            · rw [List.mem_singleton.mp hx]
              exact hne }
    rw [hflat]
    refine .lays hlays c.length (le_refl _) ?_ ?_
    · rw [List.take_length]
    · rw [List.length_append]

/-- Where the last segment is kept, it is cut. -/
theorem crash_kept (h : Lays crc strict d closed last file tail)
    (hkeep : strict = false → KeepsSynced l path d)
    (hkept : (d.entry (segmentName closed.flatten.length)).pick
      (l.version (path ++ [segmentName closed.flatten.length])) = some file)
    {m : Nat} (hm : m ≤ last.length)
    (hsafe : (frames crc (last.take m)).length ≤ file.safe.length) :
    ∃ k, m ≤ k ∧ k ≤ last.length ∧ Carries crc strict (d.crash l path)
      (closed.flatten ++ last.take k) (closed.flatten.length + k) := by
  have hgood : ∀ b ∈ last, Framable b := fun b hb => h.good b (List.mem_append_right _ hb)
  generalize hkeepn : l.bytes (path ++ [segmentName closed.flatten.length]) = keep
  have hpre : (file.lose keep).safe <+: frames crc last ++ tail := by
    rw [← h.data, File.data, File.lose]
    exact (List.prefix_append_right_inj _).mpr (List.take_prefix _ _)
  rcases cut_frames h.torn hgood hpre with ⟨k, hk, tail', htail', hcut, hmax⟩
  have hmk : m ≤ k := by
    refine hmax m hm (le_trans hsafe ?_)
    simp [File.lose]
  have hfew := h.few
  have hlays : Lays crc strict (d.crash l path) closed (last.take k) (file.lose keep) tail' :=
    { full := h.full
      good := fun b hb => by
        rcases List.mem_append.mp hb with hb | hb
        · exact h.good b (List.mem_append_left _ hb)
        · exact hgood b (List.mem_of_mem_take hb)
      few := by rw [List.length_take]; omega
      shut := fun x hx => ⟨[], solid_nil _, h.shut_crash hkeep hx⟩
      final := ⟨[], solid_nil _, by rw [Folder.entry_crash, hkept, hkeepn]; rfl⟩
      data := by rw [← hcut]; simp [File.data, File.lose]
      torn := htail'
      only := fun n hn hne hshut => (h.only n hn hne hshut).crash }
  refine ⟨k, hmk, hk, .lays hlays k ?_ ?_ (le_refl _)⟩
  · rw [List.length_take]
    omega
  · rw [List.take_take, Nat.min_self, hcut]
    simp

end Lays

/-- A crash leaves a prefix of the bodies, with the durable ones. -/
theorem Carries.crash {L : List Bytes} {durable : Nat} (h : Carries crc strict d L durable)
    (hkeep : strict = false → KeepsSynced l path d) :
    ∃ k, durable ≤ k ∧ k ≤ L.length ∧ Carries crc strict (d.crash l path) (L.take k) k := by
  cases h with
  | bare h => exact ⟨0, le_refl 0, le_refl 0, .bare h.crash⟩
  | lays h m hm hsafe hd =>
    rename_i closed last file tail
    rcases h.final with ⟨past, hpast, he⟩
    have hpick := Entry.pick_mem (d.entry (segmentName closed.flatten.length))
      (l.version (path ++ [segmentName closed.flatten.length]))
    have hversions : (d.entry (segmentName closed.flatten.length)).versions =
        some file :: past := by
      rw [he, Entry.versions]
    rw [hversions] at hpick
    rcases List.mem_cons.mp hpick with hkept | hgone
    · rcases h.crash_kept hkeep hkept hm hsafe with ⟨k, hmk, hk, hrests⟩
      refine ⟨closed.flatten.length + k, by omega, by rw [List.length_append]; omega, ?_⟩
      rwa [List.take_append, Nat.add_sub_cancel_left, List.take_of_length_le (by omega)]
    · -- Only an entry that is not synced goes back to nothing, and only without synced bytes.
      have hnone := hpast.1 _ hgone
      have hm0 : m = 0 := by
        cases hs : strict with
        | true =>
          rw [hpast.2 hs] at hgone
          cases hgone
        | false =>
          by_contra hm0
          have hne : file.safe ≠ [] := by
            intro hnil
            rw [hnil] at hsafe
            have := frames_eq_nil (List.length_eq_zero_iff.mp (Nat.le_zero.mp hsafe))
            rw [List.take_eq_nil_iff] at this
            rcases this with h0 | h0
            · exact hm0 h0
            · rw [h0] at hm
              exact hm0 (Nat.le_zero.mp hm)
          have hkept := hkeep hs _ _ h.get_final hne
          rw [hnone] at hkept
          cases hkept
      refine ⟨closed.flatten.length, by omega, by rw [List.length_append]; omega, ?_⟩
      rw [List.take_left]
      exact h.crash_gone hkeep hnone

end Crash

end Tautq
