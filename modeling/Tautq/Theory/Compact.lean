import Tautq.Theory.Wal

/-!
# What a Compaction Leaves Behind

A compaction writes a generation apart from the active directory, so that until the
pointer is renamed the log is as it was. `Apart` says that a change leaves what the
log sees alone; everything a compaction does before the rename is apart.

Between the rename of the pointer and the sync of its directory, an open replays the
snapshot and a crash leaves either. Once the directory is synced the snapshot is
there for good, and what is removed then is apart from it.

## Main definitions

* `Apart`: A change leaves the pointer and the active directory alone.
* `Building`, `Generation`: A generation that is being written, and one that is durable.
* `Between`: The pointer is renamed and not yet durable.

## Theorems

* `nextGeneration_ends`, `writeGeneration_ends`, `writePointer_ends`: Up to the rename.
* `between_of_rename`: The rename itself.
* `install_ends`: From the rename on.
* `compact_ends`: The whole.
-/

namespace Tautq

open Proc

/-! ### Changes apart from the log -/

/-- A change leaves the pointer and the segments of the active directory alone. -/
structure Apart (place : Option Name) (disk disk' : Volume) : Prop where
  pointer : disk'.files.entry kCurrent = disk.files.entry kCurrent
  files : place = none → ∀ n, isSegment n = true → disk'.files.entry n = disk.files.entry n
  dir : ∀ g ∈ place, disk'.dirs.entry g = disk.dirs.entry g
  tidy : Tidy disk → Tidy disk'

variable {crc : Bytes → UInt32} {disk disk' : Volume} {place : Option Name} {w : Wal}
  {closed : List (List Bytes)} {last : List Bytes} {file : File} {m : Nat} {F : Fate → Prop}
  {dir : Name} {S L : List Bytes}

namespace Apart

theorem refl (place : Option Name) (disk : Volume) : Apart place disk disk :=
  ⟨rfl, fun _ _ _ => rfl, fun _ _ => rfl, id⟩

theorem trans {disk'' : Volume} (h : Apart place disk disk') (h' : Apart place disk' disk'') :
    Apart place disk disk'' :=
  ⟨h'.pointer.trans h.pointer, fun hp n hn => (h'.files hp n hn).trans (h.files hp n hn),
    fun g hg => (h'.dir g hg).trans (h.dir g hg), fun ht => h'.tidy (h.tidy ht)⟩

/-- A change inside another directory. -/
theorem modify (hdir : place ≠ some dir) (f : Folder File → Folder File) :
    Apart place disk (disk.modify (some dir) f) := by
  refine ⟨rfl, fun _ _ _ => rfl, fun g hg => ?_, fun ht => ht.modify⟩
  change (disk.dirs.edit dir f).entry g = _
  rw [Folder.entry_edit, if_neg]
  rintro rfl
  exact hdir hg

/-- A write to a file in another directory. -/
theorem grow (hdir : place ≠ some dir) (n : Name) (b : Bytes) :
    Apart place disk (disk.grow (some dir) n b) := by
  unfold Volume.grow
  split
  · exact .refl place disk
  · exact .modify hdir _

/-- Another directory is made or removed. -/
theorem putDir (hdir : place ≠ some dir) {v : Option (Folder File)}
    (hv : isSegment dir = false ∨ v = none) :
    Apart place disk { disk with dirs := disk.dirs.put dir v } := by
  refine ⟨rfl, fun _ _ _ => rfl, fun g hg => ?_, fun ht n hn v' hv' => ?_⟩
  · rw [Folder.entry_put, if_neg]
    rintro rfl
    exact hdir hg
  · rw [Folder.entry_put] at hv'
    split at hv'
    · rename_i heq
      subst heq
      rcases hv with hseg | rfl
      · rw [hn] at hseg
        cases hseg
      · rcases List.mem_cons.mp hv' with rfl | hv'
        · rfl
        · exact ht n hn v' hv'
    · exact ht n hn v' hv'

/-- A file that is neither the pointer nor an active segment is changed. -/
theorem putFile {n : Name} {files : Folder File} (hn : n ≠ kCurrent)
    (hseg : place = none → isSegment n = false)
    (hfiles : ∀ k, k ≠ n → files.entry k = disk.files.entry k) :
    Apart place disk { disk with files } := by
  refine ⟨hfiles _ (Ne.symm hn), fun hp k hk => hfiles k ?_, fun _ _ => rfl, id⟩
  rintro rfl
  rw [hseg hp] at hk
  cases hk

end Apart

/-- A running log goes on where it is left alone. -/
theorem Running.apart {strict firm : Bool} (h : Running crc strict firm disk w closed last file m)
    (ha : Apart w.activeDir disk disk') : Running crc strict firm disk' w closed last file m := by
  have hpoints : Points firm disk' w.activeDir := by
    have hold := h.points
    cases hp : w.activeDir with
    | none =>
      rw [hp, Points, Folder.get_eq] at hold
      rw [Points, Folder.get_eq, ha.pointer]
      exact hold
    | some g =>
      rw [hp, Points, Folder.get_eq] at hold
      rw [Points, Folder.get_eq, ha.pointer, ha.dir g hp]
      exact hold
  have hdir : ∃ d, disk'.dir w.activeDir = some d ∧ Lays crc strict d closed last file [] := by
    rcases h.dir with ⟨d, hdir, hlays⟩
    cases hp : w.activeDir with
    | none =>
      rw [hp] at hdir
      cases hdir
      exact ⟨disk'.files, rfl, hlays.congr (ha.files hp)⟩
    | some g =>
      rw [hp] at hdir
      refine ⟨d, ?_, hlays⟩
      change (disk'.dirs.entry g).now = _
      rw [ha.dir g hp]
      exact hdir
  exact ⟨hpoints, ha.tidy h.tidy, hdir, h.fd, h.failed, h.size, h.lsn, h.le, h.safe⟩

/-- Syncing the data directory leaves a running log running. -/
theorem Running.synced {strict firm : Bool}
    (h : Running crc strict firm disk w closed last file m) :
    Running crc strict firm (disk.synced none) w closed last file m := by
  refine ⟨h.points.synced none, h.tidy.synced none, ?_, h.fd, h.failed, h.size, h.lsn, h.le, h.safe⟩
  rcases h.dir with ⟨d, hdir, hlays⟩
  rw [Volume.dir_synced]
  by_cases hp : w.activeDir = none
  · rw [if_pos hp]
    rw [hp] at hdir
    refine ⟨d.settle, by rw [hdir]; rfl, ?_⟩
    cases strict with
    | true => exact hlays.settle
    | false => exact hlays.settle.weaken
  · rw [if_neg hp]
    exact ⟨d, hdir, hlays⟩

/-! ### Writing a generation -/

/-- A generation that is durable, with the bodies of a snapshot. -/
def Generation (crc : Bytes → UInt32) (disk : Volume) (dir : Name) (S : List Bytes) : Prop :=
  ∃ d closed last file, disk.dirs.entry dir = ⟨some d, []⟩ ∧ Lays crc true d closed last file [] ∧
    file.loose = [] ∧ S = closed.flatten ++ last

section Build

-- What is kept until the rename: anything that only depends on what the log sees.
variable {I : Volume → Prop} (hI : ∀ {disk disk'}, I disk → Apart place disk disk' → I disk')
  (hsync : ∀ {disk}, I disk → I (disk.synced none))
  (hthere : ∀ {disk}, I disk → ∀ g ∈ place, (disk.dirs.get g).isSome)

/-- A generation that is being written, apart from the log. -/
structure Building (crc : Bytes → UInt32) (I : Volume → Prop) (disk : Volume) (dir : Name)
    (closed : List (List Bytes)) (last : List Bytes) (file : File) : Prop where
  old : I disk
  new : ∃ d, disk.dirs.get dir = some d ∧ Lays crc false d closed last file []

include hI

include hthere in
/-- The next generation's directory is a new one. -/
theorem nextGeneration_ends (left g : Nat) (hg : g + left ≤ 2 ^ 64) (h : I disk) :
    Ends F (Wal.nextGeneration left g) disk
      (fun r disk' => I disk' ∧ ∀ g' ∈ r, g' < 2 ^ 64 ∧ place ≠ some (genName g') ∧
        disk'.dirs.get (genName g') = some {}) I := by
  induction left generalizing g with
  | zero => exact .pure ⟨h, by simp⟩
  | succ left ih =>
    refine (Ends.of_call _ _).seq (fun disk' hk => hk.1 ▸ h) (fun r disk' hr => ?_)
    rcases hr with ⟨rfl, rfl⟩ | ⟨rfl, rfl, _⟩
    swap
    · exact .pure ⟨h, by simp⟩
    by_cases htaken : (disk.files.get (genName g)).isSome = true ∨
      (disk.dirs.get (genName g)).isSome = true
    · simp only [if_pos htaken]
      exact ih (g + 1) (by omega)
    · have hplace : place ≠ some (genName g) := by
        rintro rfl
        exact htaken (Or.inr (hthere h _ rfl))
      simp only [if_neg htaken]
      refine .pure ⟨hI h (.putDir hplace (.inl (isSegment_genName g))), fun g' hg' => ?_⟩
      cases hg'
      refine ⟨by omega, hplace, ?_⟩
      rw [Folder.get_put, if_pos rfl]

/-- A frame is written to the last segment. -/
theorem Building.write (hplace : place ≠ some dir) (h : Building crc I disk dir closed last file)
    {body : Bytes} (hbody : Framable body) :
    Ends F (writeAll (some dir) (segmentName closed.flatten.length) (frame crc body)) disk
      (fun ok disk' => I disk' ∧ (ok = true →
        Building crc I disk' dir closed (last ++ [body]) (file.append (frame crc body)))) I := by
  rcases h.new with ⟨d, hdir, hlays⟩
  refine writeAll_ends (frame_ne_nil body) (fun _ k _ => hI h.old (.grow hplace _ _))
    (fun k _ => ⟨hI h.old (.grow hplace _ _), by simp⟩)
    (fun hfits => ⟨hI h.old (.grow hplace _ _), fun _ => ⟨hI h.old (.grow hplace _ _), ?_⟩⟩)
  exact hlays.grow (p := some dir) hdir hbody hfits

/-- The last segment is synced. -/
theorem Building.sync (hplace : place ≠ some dir) (h : Building crc I disk dir closed last file) :
    Ends F (dataSync (some dir) (segmentName closed.flatten.length)) disk
      (fun ok disk' => I disk' ∧ (ok = true → Building crc I disk' dir closed last file.sync))
      I := by
  rcases h.new with ⟨d, hdir, hlays⟩
  refine (Ends.of_call _ _).mono (fun ok disk' hok => ?_) (fun disk' hk => hk.1 ▸ h.old)
  rcases hok with ⟨rfl, rfl⟩ | ⟨rfl, rfl, _⟩
  · have hold :=
      hI h.old (.modify hplace (fun d => d.edit (segmentName closed.flatten.length) File.sync))
    refine ⟨hold, fun _ => ⟨hold, _, ?_, hlays.sync⟩⟩
    change (disk.dirs.edit dir _).get dir = _
    rw [Folder.get_edit, if_pos rfl, hdir]
    rfl
  · exact ⟨h.old, by simp⟩

/-- A segment is created. -/
theorem openSegment_ends {d : Folder File} {start : Nat} (hplace : place ≠ some dir) (h : I disk)
    (hdir : disk.dirs.get dir = some d) (hnew : d.get (segmentName start) = none) :
    Ends F (Wal.openSegment dir start) disk (fun ok disk' => I disk' ∧ (ok = true →
      disk'.dirs.get dir = some (d.put (segmentName start) (some {})))) I := by
  refine (Ends.of_call _ _).mono (fun ok disk' hok => ?_) (fun disk' hk => hk.1 ▸ h)
  simp only [show disk.dir (some dir) = some d from hdir, hnew, Option.isSome_none,
    Bool.false_eq_true, if_false, if_true] at hok
  rcases hok with ⟨rfl, rfl⟩ | ⟨rfl, rfl, _⟩
  · refine ⟨hI h (.modify hplace _), fun _ => ?_⟩
    change (disk.dirs.edit dir _).get dir = _
    rw [Folder.get_edit, if_pos rfl, hdir]
    rfl
  · exact ⟨h, by simp⟩

/-- The bodies of a snapshot are written, in as many segments as it takes. -/
theorem writeSnapshot_ends (hplace : place ≠ some dir) (segmentBytes : Nat) {bodies : List Bytes}
    (hb : ∀ b ∈ bodies, Framable b) {out : Wal.Out} (h : Building crc I disk dir closed last file)
    (hname : out.name = segmentName closed.flatten.length)
    (hsize : out.size = (frames crc last).length)
    (hlsn : out.lsn = closed.flatten.length + last.length) :
    Ends F (Wal.writeSnapshot crc segmentBytes dir out bodies) disk (fun r disk' => I disk' ∧
      (r.2 = true → ∃ out' closed' last' file', r.1 = some out' ∧
        Building crc I disk' dir closed' last' file' ∧
        out'.name = segmentName closed'.flatten.length ∧
        out'.lsn = closed'.flatten.length + last'.length ∧
        closed'.flatten ++ last' = closed.flatten ++ last ++ bodies)) I := by
  induction bodies generalizing disk closed last file out with
  | nil =>
    refine .pure ⟨h.old, fun _ => ⟨out, closed, last, file, rfl, h, hname, hlsn, ?_⟩⟩
    rw [List.append_nil]
  | cons body rest ih =>
    have hbody := hb body List.mem_cons_self
    have hrest := fun b hb' => hb b (List.mem_cons_of_mem body hb')
    unfold Wal.writeSnapshot
    refine .ite (fun hrot => ?_) (fun _ => ?_)
    · -- The frame goes to a new segment.
      have hlast : last ≠ [] := by
        rintro rfl
        rw [hsize, frames_nil] at hrot
        exact Nat.lt_irrefl 0 hrot.1
      rw [hname]
      refine (h.sync hI hplace).bind (fun ok disk₁ hok => .ite (fun htrue => ?_) (fun _ => ?_))
      swap
      · exact .pure ⟨hok.1, by simp⟩
      have h₁ := hok.2 htrue
      rcases h₁.new with ⟨d, hdir, hlays⟩
      have hnew := hlays.next_unused hlast _ List.mem_cons_self
      rw [← hlsn] at hnew
      refine (openSegment_ends hI hplace h₁.old hdir hnew).bind
        (fun ok disk₂ hok => .ite (fun htrue => ?_) (fun _ => ?_))
      swap
      · exact .pure ⟨hok.1, by simp⟩
      have h₂ : Building crc I disk₂ dir (closed ++ [last]) [] {} := by
        refine ⟨hok.1, _, hok.2 htrue, ?_⟩
        rw [hlsn]
        exact hlays.next hlast rfl
      have hflat : (closed ++ [last]).flatten.length = out.lsn := by
        rw [hlsn]
        simp
      have hwrite := h₂.write (F := F) hI hplace hbody
      rw [hflat] at hwrite
      refine hwrite.bind (fun ok disk₃ hok => .ite (fun htrue => ?_) (fun _ => ?_))
      swap
      · exact .pure ⟨hok.1, by simp⟩
      have h₃ := hok.2 htrue
      rcases h₃.new with ⟨_, _, hlays₃⟩
      have hfew := hlays₃.few
      have hnext := @ih _ _ _ _ hrest
        ⟨segmentName out.lsn, kFrameHeader + body.length, (out.lsn + 1) % 2 ^ 64⟩ h₃
        (by rw [hflat]) (by simp)
        (by simp only [List.nil_append, List.length_singleton, hflat] at hfew ⊢; omega)
      refine hnext.mono (fun r disk' hr => ?_) (fun _ h => h)
      simpa using hr
    · rw [hname]
      refine (h.write hI hplace hbody).bind
        (fun ok disk₁ hok => .ite (fun htrue => ?_) (fun _ => ?_))
      swap
      · exact .pure ⟨hok.1, by simp⟩
      have h₁ := hok.2 htrue
      rcases h₁.new with ⟨_, _, hlays₁⟩
      have hfew := hlays₁.few
      rw [List.length_append, List.length_singleton] at hfew
      have hnext := @ih _ _ _ _ hrest
        ⟨segmentName closed.flatten.length, out.size + (kFrameHeader + body.length),
          (out.lsn + 1) % 2 ^ 64⟩ h₁ rfl (by simp [hsize])
        (by simp only [List.length_append, List.length_singleton]; omega)
      refine hnext.mono (fun r disk' hr => ?_) (fun _ h => h)
      simpa using hr

include hsync in
/-- A generation is written and made durable. -/
theorem writeGeneration_ends (hplace : place ≠ some dir) (segmentBytes : Nat)
    (hS : ∀ b ∈ S, Framable b) (h : I disk) (hdir : disk.dirs.get dir = some {}) :
    Ends F (Wal.writeGeneration crc segmentBytes dir S) disk
      (fun r disk' => I disk' ∧ ∀ n ∈ r, n = S.length ∧ Generation crc disk' dir S) I := by
  have hbare : Bare ({} : Folder File) := fun _ _ _ hv => List.mem_singleton.mp hv
  refine (openSegment_ends hI hplace h hdir rfl).bind
    (fun ok disk₁ hok => .ite (fun htrue => ?_) (fun _ => ?_))
  swap
  · exact .pure ⟨hok.1, by simp⟩
  have h₁ : Building crc I disk₁ dir [] [] {} := ⟨hok.1, _, hok.2 htrue, Lays.first hbare⟩
  refine (writeSnapshot_ends hI hplace segmentBytes hS h₁ rfl rfl rfl).bind (fun r disk₂ hr => ?_)
  rcases r with ⟨o, ok⟩
  cases o with
  | none => exact .pure ⟨hr.1, by simp⟩
  | some out =>
    cases ok with
    | false =>
      -- The open segment is synced all the same.
      refine Ends.bind (Q := fun _ => I) (.call (fun _ => hr.1) (fun _ => hr.1)
        (hI hr.1 (.modify hplace _))) (fun ok disk₃ hok => .ite (fun _ => ?_) (fun _ => ?_))
      · exact .pure ⟨hok, by simp⟩
      · exact .pure ⟨hok, by simp⟩
    | true =>
      rcases hr.2 rfl with ⟨out', closed, last, file, heq, h₂, hname, hlsn, hall⟩
      cases heq
      simp only [List.flatten_nil, List.nil_append] at hall
      simp only [hname]
      refine (h₂.sync hI hplace).bind (fun ok disk₃ hok => .ite (fun htrue => ?_) (fun _ => ?_))
      swap
      · exact .pure ⟨hok.1, by simp⟩
      have h₃ := hok.2 htrue
      rcases h₃.new with ⟨d, hdir₃, hlays⟩
      rw [if_pos trivial]
      -- First the generation's own entries, then its entry.
      refine Ends.bind (Q := fun ok disk' => I disk' ∧ (ok = true →
        disk'.dirs.get dir = some d.settle))
        (.call (fun _ => h₃.old) (fun _ => ⟨h₃.old, by simp⟩) ?_)
        (fun ok disk₄ hok => .ite (fun htrue => ?_) (fun _ => ?_))
      · simp only [show disk₃.dir (some dir) = some d from hdir₃, Option.isSome_some, if_true]
        refine ⟨hI h₃.old (.modify hplace _), fun _ => ?_⟩
        change (disk₃.dirs.edit dir _).get dir = _
        rw [Folder.get_edit, if_pos rfl, hdir₃]
        rfl
      swap
      · exact .pure ⟨hok.1, by simp⟩
      have hdir₄ := hok.2 htrue
      refine (Ends.of_call _ _).seq (fun disk' hk => hk.1 ▸ hok.1) (fun ok disk₅ hok₅ => ?_)
      simp only [Volume.dir_none, Option.isSome_some, if_true] at hok₅
      rcases hok₅ with ⟨rfl, rfl⟩ | ⟨rfl, rfl, _⟩
      swap
      · exact .pure ⟨hok.1, by simp⟩
      rw [if_pos rfl]
      refine .pure ⟨hsync hok.1, fun n hn => ?_⟩
      cases hn
      refine ⟨by rw [hlsn, ← hall, List.length_append], d.settle, closed, last, file.sync, ?_,
        hlays.settle, rfl, hall.symm⟩
      change (disk₄.dirs.settle.entry dir) = _
      rw [Folder.entry_settle, ← Folder.get_eq, hdir₄]

omit hI in
/-- A change to the pointer's temporary file. -/
theorem Apart.tmp {files : Folder File}
    (hfiles : ∀ k, k ≠ kCurrentTmp → files.entry k = disk.files.entry k) :
    Apart place disk { disk with files } :=
  .putFile (by decide) (fun _ => by decide) hfiles

omit hI in
theorem Apart.growTmp (b : Bytes) : Apart place disk (disk.grow none kCurrentTmp b) := by
  unfold Volume.grow
  split
  · exact .refl place disk
  · exact .tmp (fun k hk => by rw [Folder.entry_edit, if_neg hk])

/-- The pointer is written under its temporary name. -/
theorem writePointer_ends (g : Nat) (h : I disk) (hgen : Generation crc disk dir S) :
    Ends F (Wal.writePointer g) disk
    (fun ok disk' => I disk' ∧ (ok = true → Generation crc disk' dir S ∧
      disk'.files.get kCurrentTmp = some { safe := decimal g ++ [10] })) I := by
  -- Opened empty.
  have hopen : Ends F (openTrunc kCurrentTmp) disk (fun ok disk' => I disk' ∧ (ok = true →
      Generation crc disk' dir S ∧ disk'.files.get kCurrentTmp = some {})) I := by
    refine .call (fun _ => h) (fun _ => ⟨h, by simp⟩) ?_
    split
    · rename_i hsome
      refine ⟨hI h (.tmp (fun k hk => by rw [Folder.entry_edit, if_neg hk])), fun _ => ⟨hgen, ?_⟩⟩
      rcases Option.isSome_iff_exists.mp hsome with ⟨f, hf⟩
      rw [Folder.get_edit, if_pos rfl, hf]
      rfl
    · refine ⟨hI h (.tmp (fun k hk => by rw [Folder.entry_put, if_neg hk])), fun _ => ⟨hgen, ?_⟩⟩
      rw [Folder.get_put, if_pos rfl]
  refine hopen.bind (fun ok disk₁ hok => .ite (fun htrue => ?_) (fun _ => .pure ⟨hok.1, by simp⟩))
  rcases hok.2 htrue with ⟨hgen₁, htmp₁⟩
  -- Written.
  have htext : decimal g ++ [10] ≠ [] := by simp
  have hwrite : Ends F (writeAll none kCurrentTmp (decimal g ++ [10])) disk₁
      (fun ok disk' => I disk' ∧ (ok = true → Generation crc disk' dir S ∧
        disk'.files.get kCurrentTmp = some { loose := decimal g ++ [10] })) I := by
    refine writeAll_ends htext (fun _ k _ => hI hok.1 (.growTmp _))
      (fun k _ => ⟨hI hok.1 (.growTmp _), by simp⟩) (fun _ => ⟨hI hok.1 (.growTmp _), fun _ => ?_⟩)
    rw [Volume.grow, if_neg htext]
    refine ⟨hgen₁, ?_⟩
    change (disk₁.files.edit kCurrentTmp _).get kCurrentTmp = _
    rw [Folder.get_edit, if_pos rfl, htmp₁]
    rfl
  refine hwrite.bind (fun ok disk₂ hok => .ite (fun htrue => ?_) (fun _ => .pure ⟨hok.1, by simp⟩))
  rcases hok.2 htrue with ⟨hgen₂, htmp₂⟩
  -- Synced.
  refine .call (fun _ => hok.1) (fun _ => ⟨hok.1, by simp⟩) ⟨hI hok.1 (.tmp (fun k hk => ?_)),
    fun _ => ⟨hgen₂, ?_⟩⟩
  · rw [Folder.entry_edit, if_neg hk]
  · change (disk₂.files.edit kCurrentTmp File.sync).get kCurrentTmp = _
    rw [Folder.get_edit, if_pos rfl, htmp₂]
    rfl

end Build

/-! ### The rename -/

/-- The pointer names a generation and is durable. -/
structure Installed (crc : Bytes → UInt32) (firm : Bool) (disk : Volume) (dir : Name)
    (S : List Bytes) : Prop where
  gen : Generation crc disk dir S
  points : Points firm disk (some dir)
  tidy : Tidy disk

/-- The pointer is renamed and not yet durable: it names the generation, and a crash leaves it so
    or as it was, if all that was durable. -/
structure Between (crc : Bytes → UInt32) (strict firm : Bool) (disk : Volume) (place : Option Name)
    (L : List Bytes) (dir : Name) (S : List Bytes) : Prop where
  now : Installed crc false disk dir S
  pending : (disk.files.entry kCurrent).past ≠ []
  crashed : strict = true → firm = true →
    ∀ l, AtRest crc true true (disk.crash l) (some dir) S S.length ∨
    AtRest crc true true (disk.crash l) place L L.length

theorem Generation.rests (h : Generation crc disk dir S) :
    ∃ d, disk.dirs.entry dir = ⟨some d, []⟩ ∧ Carries crc true d S S.length := by
  rcases h with ⟨d, closed, last, file, hentry, hlays, hloose, rfl⟩
  refine ⟨d, hentry, .lays hlays last.length (le_refl _) ?_ (by rw [List.length_append])⟩
  have hdata := hlays.data
  rw [File.data, hloose, List.append_nil, List.append_nil] at hdata
  rw [List.take_length, hdata]

theorem Installed.atRest {firm : Bool} (h : Installed crc firm disk dir S) :
    AtRest crc true firm disk (some dir) S S.length := by
  rcases h.gen.rests with ⟨d, hentry, hrests⟩
  refine ⟨h.points, h.tidy, d, ?_, hrests⟩
  change (disk.dirs.entry dir).now = _
  rw [hentry]

/-- What a crash leaves of a directory whose bodies are all durable, where the pointer names
    it. -/
theorem atRest_of_crash {l : Loss} {d : Folder File} (hpoints : Points true (disk.crash l) place)
    (htidy : Tidy disk) (hdir : disk.dir place = some d)
    (hpast : ∀ n ∈ place, (disk.dirs.entry n).past = []) (hrests : Carries crc true d L L.length) :
    AtRest crc true true (disk.crash l) place L L.length := by
  have hcrash : Carries crc true (d.crash l place.toList) L L.length := by
    rcases hrests.crash (by simp) with ⟨k, hk, hlen, hcrash⟩
    have hall : k = L.length := by omega
    rwa [hall, List.take_length] at hcrash
  exact ⟨hpoints, htidy.crash l, _, disk.dir_crash l hdir hpast, hcrash⟩

theorem Carries.congr {strict : Bool} {d d' : Folder File} {durable : Nat}
    (h : Carries crc strict d L durable)
    (hd : ∀ n, isSegment n = true → d'.entry n = d.entry n) : Carries crc strict d' L durable := by
  cases h with
  | bare h =>
    refine .bare (fun n hn => ?_)
    rw [hd n hn]
    exact h n hn
  | lays h m hm hsafe hdur => exact .lays (h.congr hd) m hm hsafe hdur

/-- Where the pointer is firm, so are its entry and that of the active directory. -/
theorem Points.past (h : Points true disk place) :
    (disk.files.entry kCurrent).past = [] ∧ ∀ n ∈ place, (disk.dirs.entry n).past = [] := by
  cases place with
  | none => exact ⟨h.2 rfl, by simp⟩
  | some n =>
    refine ⟨(h.2 rfl).1, fun k hk => ?_⟩
    cases hk
    exact (h.2 rfl).2

/-- Once the pointer is renamed a crash leaves the generation or the log as it was. -/
theorem between_of_rename {strict firm : Bool} {g : Nat} {files : Folder File} (hg : g < 2 ^ 64)
    (hold : AtRest crc strict firm disk place L L.length) (hgen : Generation crc disk (genName g) S)
    (hcurrent : files.entry kCurrent =
      ⟨some { safe := decimal g ++ [10] }, (disk.files.entry kCurrent).versions⟩)
    (hother : ∀ n, isSegment n = true → files.entry n = disk.files.entry n) :
    Between crc strict firm { disk with files } place L (genName g) S := by
  refine ⟨⟨hgen, ⟨⟨g, _, rfl, by rw [Folder.get_eq, hcurrent], rfl, parseU64_decimal hg⟩, by simp⟩,
    hold.tidy⟩, by rw [hcurrent]; simp [Entry.versions], ?_⟩
  rintro rfl rfl l
  rcases hold.points.past with ⟨hpast, hpasts⟩
  rw [Entry.versions, hpast] at hcurrent
  have hcrash := Folder.entry_crash l [] files kCurrent
  rw [hcurrent] at hcrash
  have hpick :=
    Entry.pick_mem (⟨some { safe := decimal g ++ [10] }, [(disk.files.entry kCurrent).now]⟩ :
    Entry File) (l.version ([] ++ [kCurrent]))
  rcases List.mem_cons.mp hpick with hnew | hpick
  · -- The new pointer.
    left
    rw [hnew] at hcrash
    rcases hgen.rests with ⟨d, hentry, hrests⟩
    have hpoints : Points true (({ disk with files } : Volume).crash l) (some (genName g)) := by
      refine ⟨⟨g, { safe := decimal g ++ [10] }, rfl, ?_, rfl, parseU64_decimal hg⟩,
        fun _ => ⟨?_, ?_⟩⟩
      · change ((files.crash l []).entry kCurrent).now = _
        rw [hcrash]
        simp [File.lose]
      · change ((files.crash l []).entry kCurrent).past = _
        rw [hcrash]
      · rw [Volume.entry_dirs_crash]
    have hdir : ({ disk with files } : Volume).dir (some (genName g)) = some d := by
      change (disk.dirs.entry (genName g)).now = _
      rw [hentry]
    refine atRest_of_crash hpoints hold.tidy hdir (fun n hn => ?_) hrests
    cases hn
    change (disk.dirs.entry (genName g)).past = []
    rw [hentry]
  · -- The old one.
    right
    rw [List.mem_singleton.mp hpick] at hcrash
    rcases hold.rests with ⟨d, hdir, hrests⟩
    have hpoints : Points true (({ disk with files } : Volume).crash l) place := by
      have hkept : (({ disk with files } : Volume).crash l).files.entry kCurrent =
          (disk.crash l).files.entry kCurrent := by
        change (files.crash l []).entry kCurrent = (disk.files.crash l []).entry kCurrent
        have hentry : disk.files.entry kCurrent = ⟨(disk.files.entry kCurrent).now,
            []⟩ := by rw [← hpast]
        rw [hcrash, Folder.entry_crash, hentry, Entry.pick_settled]
      have hcrashed := hold.points.crash l
      cases place with
      | none =>
        rw [Points, Folder.get_eq] at hcrashed ⊢
        rw [hkept]
        exact hcrashed
      | some n =>
        rw [Points, Folder.get_eq] at hcrashed ⊢
        rw [hkept]
        exact hcrashed
    have hdir' : ∃ d', ({ disk with files } : Volume).dir place = some d' ∧
        Carries crc true d' L L.length := by
      cases place with
      | none =>
        cases hdir
        exact ⟨files, rfl, hrests.congr hother⟩
      | some n => exact ⟨d, hdir, hrests⟩
    rcases hdir' with ⟨d', hdir', hrests'⟩
    exact atRest_of_crash hpoints hold.tidy hdir' hpasts hrests'

/-! ### Switching over -/

/-- Once the data directory is synced the generation is there for good. -/
theorem Installed.synced (h : Installed crc false disk dir S) :
    Installed crc true (disk.synced none) dir S := by
  rcases h.gen with ⟨d, closed, last, file, hentry, hrest⟩
  refine ⟨⟨d, closed, last, file, ?_, hrest⟩, ⟨(h.points.synced none).1, fun _ => ⟨?_, ?_⟩⟩,
    h.tidy.synced none⟩
  · change disk.dirs.settle.entry dir = _
    rw [Folder.entry_settle, hentry]
  · change (disk.files.settle.entry kCurrent).past = []
    rw [Folder.entry_settle]
  · change (disk.dirs.settle.entry dir).past = []
    rw [Folder.entry_settle]

/-- The last segment of the generation is opened for appending. -/
theorem switchTo_ends (h : Installed crc true disk dir S) (g : Nat) :
    Ends F (w.switchTo dir g S.length) disk (fun r disk' => disk' = disk ∧
      ((r.1 = true ∧ r.2.activeDir = some dir ∧ r.2.segmentBytes = w.segmentBytes ∧
          Live crc true true disk r.2 S S.length) ∨
        (r.1 = false ∧ r.2.failed = w.failed))) (fun disk' => disk' = disk) := by
  rcases h.gen with ⟨d, closed, last, file, hentry, hlays, hloose, hS⟩
  have hdir : disk.dir (some dir) = some d := by
    change (disk.dirs.entry dir).now = _
    rw [hentry]
  have hdata := hlays.data
  rw [File.data, hloose, List.append_nil, List.append_nil] at hdata
  refine (Ends.of_call _ _).seq (fun disk' hk => hk.1) (fun o disk' ho => ?_)
  have hlist : disk.list (some dir) = some d.names := by
    change (disk.dirs.get dir).map Folder.names = _
    rw [show disk.dirs.get dir = some d from hdir]
    rfl
  rw [hlist] at ho
  rcases ho with ⟨rfl, rfl⟩ | ⟨rfl, rfl, _⟩
  swap
  · exact .pure ⟨rfl, .inr ⟨rfl, rfl⟩⟩
  have hsegments : segmentsOf (d.names ++ []) = _ := hlays.segments (by simp)
  rw [List.append_nil] at hsegments
  simp only [hsegments, List.getLast?_append, List.getLast?_singleton, Option.some_or,
    Option.getD_some]
  refine (reopen_ends (w := { w with fd := none, activeDir := some dir, generation := g }) hdir
    hlays.get_final _).seq (fun disk' hk => hk.1) (fun r disk₁ hr => ?_)
  rcases hr with ⟨rfl, rfl | ⟨rfl, _⟩⟩
  swap
  · exact .pure ⟨rfl, .inr ⟨rfl, rfl⟩⟩
  rw [if_pos rfl]
  refine (Ends.of_call _ _).seq (fun disk' hk => hk.1) (fun o disk₂ ho => ?_)
  simp only [hdir, Option.bind_some, hlays.get_final, Option.map_some] at ho
  rcases ho with ⟨rfl, rfl⟩ | ⟨rfl, rfl, _⟩
  swap
  · exact .pure ⟨rfl, .inr ⟨rfl, rfl⟩⟩
  refine .pure ⟨rfl, .inl ⟨rfl, rfl, rfl, closed, last, file, last.length, ?_, hS, ?_⟩⟩
  · exact
      { points := h.points
        tidy := h.tidy
        dir := ⟨d, hdir, hlays⟩
        fd := rfl
        failed := rfl
        size := by rw [hlays.data, List.append_nil]
        lsn := by rw [hS, List.length_append]
        le := le_refl _
        safe := by rw [List.take_length, hdata] }
  · rw [hS, List.length_append]

/-! ### Cleaning up -/

theorem removeFiles_ends (hdir : place ≠ some dir) (names : List Name) :
    Ends F (Wal.removeFiles dir names) disk (fun _ disk' => Apart place disk disk')
      (fun disk' => Apart place disk disk') := by
  induction names generalizing disk with
  | nil => exact .pure (.refl _ _)
  | cons n rest ih =>
    refine (Ends.of_call _ _).seq (fun disk' hk => hk.1 ▸ .refl _ _) (fun ok disk' hok => ?_)
    rcases hok with ⟨rfl, rfl⟩ | ⟨rfl, rfl, _⟩
    · exact ih.mono (fun _ _ h => (Apart.modify hdir _).trans h)
        (fun _ h => (Apart.modify hdir _).trans h)
    · exact .pure (.refl _ _)

theorem removeAll_ends (hdir : place ≠ some dir) :
    Ends F (Wal.removeAll dir) disk (fun _ disk' => Apart place disk disk')
      (fun disk' => Apart place disk disk') := by
  refine (Ends.of_call _ _).seq (fun disk' hk => hk.1 ▸ .refl _ _) (fun o disk' ho => ?_)
  have hsame : disk' = disk := by
    rcases ho with ⟨_, h⟩ | ⟨_, h, _⟩
    · exact h
    · exact h
  subst hsame
  cases o with
  | none => exact .pure (.refl _ _)
  | some names =>
    refine (removeFiles_ends hdir names).bind
      (fun ok disk₁ h₁ => .ite (fun _ => ?_) (fun _ => .pure h₁))
    exact .call (fun _ => h₁) (fun _ => h₁) (h₁.trans (.putDir hdir (.inr rfl)))

/-- What is removed is apart from the installed generation. -/
theorem cleanUp_ends (active : Name) (names : List Name) :
    Ends F (Wal.cleanUp active names) disk (fun _ disk' => Apart (some active) disk disk')
      (fun disk' => Apart (some active) disk disk') := by
  induction names generalizing disk with
  | nil => exact .pure (.refl _ _)
  | cons n rest ih =>
    unfold Wal.cleanUp
    refine .ite (fun hgen => ?_) (fun _ => .ite (fun hseg => ?_) (fun _ => ih))
    · have hne : some active ≠ some n := fun h => hgen.2 (Option.some.inj h).symm
      refine (removeAll_ends hne).bind (fun ok disk₁ h₁ => .ite (fun _ => ?_) (fun _ => .pure h₁))
      exact ih.mono (fun _ _ h => h₁.trans h) (fun _ h => h₁.trans h)
    · have hone : Apart (some active) disk (disk.modify none (fun d => d.put n none)) := by
        refine .putFile (n := n) ?_ (by simp) (fun k hk => by rw [Folder.entry_put, if_neg hk])
        rintro rfl
        revert hseg
        decide
      refine (Ends.of_call _ _).seq (fun disk' hk => hk.1 ▸ .refl _ _) (fun ok disk₁ hok => ?_)
      rcases hok with ⟨rfl, rfl⟩ | ⟨rfl, rfl, _⟩
      · exact ih.mono (fun _ _ h => hone.trans h) (fun _ h => hone.trans h)
      · exact .pure (.refl _ _)

theorem Live.apart {strict firm : Bool} {durable : Nat} (h : Live crc strict firm disk w L durable)
    (ha : Apart w.activeDir disk disk') : Live crc strict firm disk' w L durable := by
  rcases h with ⟨closed, last, file, m, hrun, hL, hd⟩
  exact ⟨closed, last, file, m, hrun.apart ha, hL, hd⟩

theorem Live.synced {strict firm : Bool} {durable : Nat}
    (h : Live crc strict firm disk w L durable) :
    Live crc strict firm (disk.synced none) w L durable := by
  rcases h with ⟨closed, last, file, m, hrun, hL, hd⟩
  exact ⟨closed, last, file, m, hrun.synced, hL, hd⟩

/-- How a compaction that renamed the pointer ends: stopped with the pointer not durable, or with
    the generation installed, and then running or stopped. -/
def AfterRename (crc : Bytes → UInt32) (strict firm : Bool) (place : Option Name) (L : List Bytes)
    (dir : Name) (S : List Bytes) (segmentBytes : Nat) (r : Bool × Wal) (disk : Volume) : Prop :=
  (r.1 = false ∧ r.2.failed = true ∧ Between crc strict firm disk place L dir S) ∨
  (r.2.activeDir = some dir ∧ r.2.segmentBytes = segmentBytes ∧
    Live crc true true disk r.2 S S.length) ∨
  (r.1 = false ∧ r.2.failed = true ∧ AtRest crc true true disk (some dir) S S.length)

theorem install_ends {strict firm : Bool} {g : Nat}
    (h : Between crc strict firm disk place L (genName g) S) :
    Ends F (w.install g S.length) disk
    (AfterRename crc strict firm place L (genName g) S w.segmentBytes)
      (fun disk' => Between crc strict firm disk' place L (genName g) S ∨
        AtRest crc true true disk' (some (genName g)) S S.length) := by
  refine (Ends.of_call _ _).seq (fun disk' hk => .inl (hk.1 ▸ h)) (fun ok disk₁ hok => ?_)
  simp only [Volume.dir_none, Option.isSome_some, if_true] at hok
  rcases hok with ⟨rfl, rfl⟩ | ⟨rfl, rfl, _⟩
  swap
  · exact .pure (.inl ⟨rfl, rfl, h⟩)
  have hinst := h.now.synced
  rw [if_pos rfl]
  refine (switchTo_ends (w := { w with failed := true }) hinst g).seq
    (fun disk' hk => .inr (hk ▸ hinst.atRest)) (fun r disk₂ hr => ?_)
  rcases hr with ⟨rfl, ⟨hok, hplace, hbytes, hlive⟩ | ⟨hok, hfailed⟩⟩
  swap
  · rw [if_neg (by simp [hok])]
    exact .pure (.inr (.inr ⟨hok, hfailed, hinst.atRest⟩))
  rw [if_pos hok]
  have hrest : ∀ {disk}, Live crc true true disk r.2 S S.length →
      AtRest crc true true disk (some (genName g)) S S.length := fun hl => hplace ▸ hl.atRest
  -- From here on the log runs on the snapshot, whatever fails.
  have hstop : AfterRename crc strict firm place L (genName g) S w.segmentBytes (false,
      { r.2 with failed := true }) (disk.synced none) := .inr (.inr ⟨rfl, rfl, hinst.atRest⟩)
  refine (Ends.of_call _ _).seq (fun disk' hk => .inr (hk.1 ▸ hinst.atRest))
    (fun ok disk' hok => ?_)
  rcases hok with ⟨rfl, rfl⟩ | ⟨rfl, rfl, _⟩
  swap
  · exact .pure hstop
  refine (Ends.of_call _ _).seq (fun disk' hk => .inr (hk.1 ▸ hinst.atRest))
    (fun ok disk' hok => ?_)
  rcases hok with ⟨rfl, rfl⟩ | ⟨rfl, rfl, _⟩
  swap
  · exact .pure hstop
  have hgoOn : ∀ {ok : Bool} {disk}, Live crc true true disk r.2 S S.length →
      AfterRename crc strict firm place L (genName g) S w.segmentBytes (ok, r.2) disk :=
    fun hl => .inr (.inl ⟨hplace, hbytes, hl⟩)
  refine (Ends.of_call _ _).seq (fun disk' hk => .inr (hk.1 ▸ hinst.atRest)) (fun o disk' ho => ?_)
  have hsame : disk' = disk.synced none := by
    rcases ho with ⟨_, h⟩ | ⟨_, h, _⟩
    · exact h
    · exact h
  subst hsame
  cases o with
  | none => exact .pure (hgoOn hlive)
  | some names =>
    refine (cleanUp_ends (genName g) names).seq
      (fun disk' ha => .inr (hrest (hlive.apart (hplace ▸ ha)))) (fun ok disk₃ ha => ?_)
    have hlive₃ := hlive.apart (hplace ▸ ha)
    refine .ite (fun _ => ?_) (fun _ => .pure (hgoOn hlive₃))
    refine (Ends.of_call _ _).seq (fun disk' hk => .inr (hk.1 ▸ hrest hlive₃))
      (fun ok disk₄ hok => .pure ?_)
    simp only [Volume.dir_none, Option.isSome_some, if_true] at hok
    rcases hok with ⟨_, rfl⟩ | ⟨_, rfl, _⟩
    · exact hgoOn hlive₃.synced
    · exact hgoOn hlive₃

/-! ### The whole -/

/-- How a compaction ends: refused; stopped at its first sync; given up with the log as it was; or
    past the rename. -/
def Compacted (crc : Bytes → UInt32) (strict firm : Bool) (disk : Volume) (w : Wal) (L : List Bytes)
    (durable : Nat) (S : List Bytes) (r : Bool × Wal) (disk' : Volume) : Prop :=
  (r = (false, w) ∧ disk' = disk) ∨
  (r = (false, { w with failed := true }) ∧ AtRest crc strict firm disk' w.activeDir L durable) ∨
  (r = (false, w) ∧ Live crc strict firm disk' w L L.length) ∨
  ∃ dir, AfterRename crc strict firm w.activeDir L dir S w.segmentBytes r disk'

/-- What a compaction leaves wherever it is cut: the log, or the snapshot, or a pointer that goes
    one way or the other. -/
theorem compact_ends {strict firm : Bool} {durable : Nat}
    (h : Live crc strict firm disk w L durable) (S : List Bytes) :
    Ends F (w.compact crc S) disk (Compacted crc strict firm disk w L durable S)
      (fun disk' => AtRest crc strict firm disk' w.activeDir L durable ∨
        ∃ dir, Between crc strict firm disk' w.activeDir L dir S ∨
        AtRest crc true true disk' (some dir) S S.length) := by
  rcases h with ⟨closed, last, file, m, hrun, rfl, hd⟩
  have hle := hrun.le
  unfold Wal.compact
  refine .ite (fun _ => .pure (.inl ⟨rfl, rfl⟩)) (fun hgo => ?_)
  have hS : ∀ b ∈ S, Framable b := by
    intro b hb
    have hno : ¬ (b = [] ∨ kMaxBody < b.length) := fun hbad => hgo (Or.inr (Or.inr ⟨b, hb, hbad⟩))
    rw [not_or] at hno
    exact ⟨hno.1, Nat.le_of_not_lt hno.2⟩
  have hrest := hrun.atRest hd
  refine (sync_ends hrun).seq (fun disk' hk => .inl (hk.1 ▸ hrest)) (fun r disk₁ hr => ?_)
  rcases hr with ⟨rfl, h₁⟩ | ⟨rfl, rfl, _⟩
  swap
  · exact .pure (.inr (.inl ⟨rfl, hrest⟩))
  rw [if_pos rfl]
  -- Until the rename the log runs on, with everything durable.
  have hkeep : ∀ {disk}, Running crc strict firm disk w closed last file.sync last.length →
      Live crc strict firm disk w (closed.flatten ++ last) (closed.flatten ++ last).length :=
    fun hr => ⟨closed, last, _, _, hr, rfl, by rw [List.length_append]⟩
  have hkill : ∀ {disk}, Running crc strict firm disk w closed last file.sync last.length →
      AtRest crc strict firm disk w.activeDir (closed.flatten ++ last) durable :=
    fun hr => hr.atRest (by omega)
  have hI : ∀ {disk disk'}, Running crc strict firm disk w closed last file.sync last.length →
      Apart w.activeDir disk disk' →
      Running crc strict firm disk' w closed last file.sync last.length :=
    fun hr ha => hr.apart ha
  have hthere : ∀ {disk}, Running crc strict firm disk w closed last file.sync last.length →
      ∀ g ∈ w.activeDir, (disk.dirs.get g).isSome := by
    intro disk hr g hg
    rcases hr.dir with ⟨d, hdir, _⟩
    rw [show w.activeDir = some g from hg] at hdir
    change (disk.dir (some g)).isSome = true
    rw [hdir]
    rfl
  have hgiveUp : ∀ {disk'}, Running crc strict firm disk' w closed last file.sync last.length →
      Compacted crc strict firm disk w (closed.flatten ++ last) durable S (false, w) disk' :=
    fun hr => .inr (.inr (.inl ⟨rfl, hkeep hr⟩))
  refine (nextGeneration_ends hI hthere _ _ (by omega) h₁).seq (fun disk' hk => .inl (hkill hk))
    (fun r disk₂ hr => ?_)
  cases r with
  | none => exact .pure (hgiveUp hr.1)
  | some g =>
    rcases hr with ⟨h₂, hg⟩
    rcases hg g rfl with ⟨hg, hplace, hempty⟩
    refine (writeGeneration_ends hI (fun hr => hr.synced) hplace _ hS h₂ hempty).seq
      (fun disk' hk => .inl (hkill hk)) (fun r disk₃ hr => ?_)
    cases r with
    | none => exact .pure (hgiveUp hr.1)
    | some lsn =>
      rcases hr with ⟨h₃, hlsn⟩
      rcases hlsn lsn rfl with ⟨rfl, hgen⟩
      refine (Ends.of_call _ _).seq (fun disk' hk => .inl (hk.1 ▸ hkill h₃))
        (fun ok disk' hok => ?_)
      rcases hok with ⟨rfl, rfl⟩ | ⟨rfl, rfl, _⟩
      swap
      · exact .pure (hgiveUp h₃)
      refine (writePointer_ends hI g h₃ hgen).seq (fun disk' hk => .inl (hkill hk))
        (fun ok disk₄ hok => .ite (fun htrue => ?_) (fun _ => .pure (hgiveUp hok.1)))
      rcases hok with ⟨h₄, hok⟩
      rcases hok htrue with ⟨hgen₄, htmp⟩
      refine (Ends.of_call _ _).seq (fun disk' hk => .inl (hk.1 ▸ hkill h₄))
        (fun ok disk₅ hok => ?_)
      simp only [htmp] at hok
      rcases hok with ⟨rfl, rfl⟩ | ⟨rfl, rfl, _⟩
      swap
      · exact .pure (hgiveUp h₄)
      rw [if_pos rfl]
      have hcurrent :
          ((disk₄.files.put kCurrent (some { safe := decimal g ++ [10] })).put kCurrentTmp
          none).entry kCurrent =
          ⟨some { safe := decimal g ++ [10] }, (disk₄.files.entry kCurrent).versions⟩ := by
        rw [Folder.entry_put, if_neg (by decide), Folder.entry_put, if_pos rfl]
      have hother : ∀ n, isSegment n = true → ((disk₄.files.put kCurrent
          (some { safe := decimal g ++ [10] })).put kCurrentTmp none).entry n =
          disk₄.files.entry n := by
        intro n hn
        have hne : ∀ k, isSegment k = false → n ≠ k := by
          rintro k hk rfl
          rw [hn] at hk
          cases hk
        rw [Folder.entry_put, if_neg (hne _ (by decide)), Folder.entry_put,
          if_neg (hne _ (by decide))]
      have hbetween :=
        between_of_rename hg (h₄.atRest (by rw [List.length_append])) hgen₄ hcurrent hother
      exact (install_ends hbetween).mono (fun _ _ hr => .inr (.inr (.inr ⟨_, hr⟩)))
        (fun _ hk => .inr ⟨_, hk⟩)

end Tautq
