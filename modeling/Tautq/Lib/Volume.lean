import Mathlib.Algebra.GroupWithZero.Nat
import Mathlib.Algebra.Order.BigOperators.Group.List
import Mathlib.Algebra.Order.Group.Nat
import Mathlib.Data.List.AList
import Tautq.Lib.Process

/-!
# A File System With Crashes

A directory of files and of directories of files, as far as a program needs it that
must survive a loss of power.

A file is a part that is on the device and a part that is not. A data sync moves
everything to the first part; a crash keeps the first part and a prefix of the
second. A directory entry remembers what it named since its directory was last
synced. A crash can take it back to any of those, each entry on its own; so a name
that was created and not synced can be gone again, and one that was renamed over
names either the old file or the new one.

A device holds fewer than `2 ^ 64` bytes. What a smaller device refuses is one of
the fates of a write.

## Main definitions

* `File`, `Entry`, `Folder`, `Volume`: Files, directory entries, directories, and the
  whole.
* `Loss`, `Volume.crash`: What a crash takes, and the disk it leaves.
* `readFile`, `listDir`, `mkdir`, `openFile`, `openTrunc`, `truncate`, `dataSync`,
  `syncDir`, `rename`, `unlink`, `rmdir`, `writeAll`: System calls.

## Theorems

* `Folder.entry_put`, `Folder.entry_edit`, `Folder.entry_settle`, `Folder.entry_crash`:
  What an operation does to an entry.
* `Folder.mem_names`: The names a directory lists.
* `Folder.sum_le_bytes`: Some of the files take up no more than all of them.
* `Volume.dir_modify`, `Volume.dir_crash`: What an operation does to a directory.
* `writeAll_ends`: A write leaves a prefix of what it was given, and all of it when
  it reports success.
-/

namespace Tautq

/-- The name of a file or a directory. -/
abbrev Name := List UInt8

/-! ### Files -/

/-- The bytes of a file that are on the device, and those after them that are not. -/
structure File where
  safe : List UInt8 := []
  loose : List UInt8 := []
deriving DecidableEq, Repr, Inhabited

namespace File

/-- What a reader sees. -/
def data (f : File) : List UInt8 :=
  f.safe ++ f.loose

def append (b : List UInt8) (f : File) : File :=
  { f with loose := f.loose ++ b }

def sync (f : File) : File :=
  { safe := f.data }

def truncate (k : Nat) (f : File) : File :=
  { safe := f.safe.take k, loose := f.loose.take (k - f.safe.length) }

/-- What a crash leaves of a file. -/
def lose (keep : Nat) (f : File) : File :=
  { safe := f.safe ++ f.loose.take keep }

@[simp] theorem data_append (b : List UInt8) (f : File) : (f.append b).data = f.data ++ b := by
  simp [data, append]

@[simp] theorem data_sync (f : File) : f.sync.data = f.data := by
  simp [data, sync]

@[simp] theorem data_truncate (k : Nat) (f : File) : (f.truncate k).data = f.data.take k := by
  simp [data, truncate, List.take_append]

theorem append_append (b c : List UInt8) (f : File) :
    (f.append b).append c = f.append (b ++ c) := by
  simp [append]

end File

/-! ### Directories -/

/-- What a name stands for now, and what it stood for since its directory was last
    synced, the latest first. -/
structure Entry (α : Type) where
  now : Option α := none
  past : List (Option α) := []
deriving DecidableEq, Repr, Inhabited

namespace Entry

variable {α : Type}

def versions (e : Entry α) : List (Option α) :=
  e.now :: e.past

/-- The version a crash goes back to. -/
def pick (e : Entry α) (i : Nat) : Option α :=
  (e.versions[i]?).getD e.now

theorem pick_mem (e : Entry α) (i : Nat) : e.pick i ∈ e.versions := by
  unfold pick
  cases h : e.versions[i]? with
  | none => exact List.mem_cons_self
  | some v => exact List.mem_of_getElem? h

@[simp] theorem pick_settled (v : Option α) (i : Nat) : pick ⟨v, []⟩ i = v := by
  have h := pick_mem (⟨v, []⟩ : Entry α) i
  simpa [versions] using h

end Entry

/-- A directory. -/
structure Folder (α : Type) where
  table : AList (fun _ : Name => Entry α) := ∅
deriving Inhabited

namespace Folder

variable {α β : Type}

/-- What a name stands for, and stood for. -/
def entry (d : Folder α) (n : Name) : Entry α :=
  (d.table.lookup n).getD {}

/-- What a name stands for. -/
def get (d : Folder α) (n : Name) : Option α :=
  (d.entry n).now

/-- The names in use. -/
def names (d : Folder α) : List Name :=
  d.table.keys.filter (fun n => (d.get n).isSome)

/-- Let a name stand for something else, or for nothing. -/
def put (d : Folder α) (n : Name) (v : Option α) : Folder α where
  table := d.table.insert n ⟨v, (d.entry n).versions⟩

/-- Change what a name stands for in place. -/
def edit (d : Folder α) (n : Name) (f : α → α) : Folder α where
  table := d.table.insert n ⟨(d.get n).map f, (d.entry n).past⟩

/-- Change every entry. -/
def map (d : Folder α) (g : Name → Entry α → Entry β) : Folder β where
  table := ⟨d.table.entries.map (fun x => ⟨x.1, g x.1 x.2⟩), by
    have h := d.table.nodupKeys
    rw [List.NodupKeys, List.keys] at h ⊢
    rwa [List.map_map]⟩

/-- The entries as they are become durable. -/
def settle (d : Folder α) : Folder α :=
  d.map (fun _ e => { now := e.now })

theorem get_eq (d : Folder α) (n : Name) : d.get n = (d.entry n).now := rfl

theorem entry_put (d : Folder α) (n m : Name) (v : Option α) :
    (d.put n v).entry m = if m = n then ⟨v, (d.entry n).versions⟩ else d.entry m := by
  by_cases h : m = n
  · rw [if_pos h, h]
    simp [entry, put]
  · rw [if_neg h]
    simp [entry, put, AList.lookup_insert_ne h]

theorem entry_edit (d : Folder α) (n m : Name) (f : α → α) :
    (d.edit n f).entry m = if m = n then ⟨(d.get n).map f, (d.entry n).past⟩ else d.entry m := by
  by_cases h : m = n
  · rw [if_pos h, h]
    simp [entry, edit]
  · rw [if_neg h]
    simp [entry, edit, AList.lookup_insert_ne h]

theorem get_put (d : Folder α) (n m : Name) (v : Option α) :
    (d.put n v).get m = if m = n then v else d.get m := by
  rw [get_eq, entry_put]
  split <;> rfl

theorem get_edit (d : Folder α) (n m : Name) (f : α → α) :
    (d.edit n f).get m = if m = n then (d.get n).map f else d.get m := by
  rw [get_eq, entry_edit]
  split <;> rfl

theorem edit_edit (d : Folder α) (n : Name) (f g : α → α) :
    (d.edit n f).edit n g = d.edit n (g ∘ f) := by
  have hget : (d.edit n f).get n = (d.get n).map f := by rw [get_edit, if_pos rfl]
  have hpast : ((d.edit n f).entry n).past = (d.entry n).past := by rw [entry_edit, if_pos rfl]
  rw [edit, hget, hpast, Option.map_map]
  simp [edit, AList.insert_insert]

/-- An entry is changed on its own, if what is unused stays so. -/
theorem entry_map (d : Folder α) {g : Name → Entry α → Entry β} (hg : ∀ n, g n {} = {}) (n : Name) :
    (d.map g).entry n = g n (d.entry n) := by
  unfold entry
  cases hd : d.table.lookup n with
  | none =>
    have hnot : (d.map g).table.lookup n = none := by
      rw [AList.lookup_eq_none] at hd ⊢
      rw [AList.mem_keys, AList.keys, List.keys] at hd ⊢
      simpa [map] using hd
    rw [hnot]
    exact (hg n).symm
  | some e =>
    have hsome : (d.map g).table.lookup n = some (g n e) := by
      rw [← Option.mem_def, AList.mem_lookup_iff] at hd ⊢
      exact List.mem_map.mpr ⟨_, hd, rfl⟩
    rw [hsome]
    rfl

@[simp] theorem entry_settle (d : Folder α) (n : Name) :
    d.settle.entry n = { now := (d.entry n).now } :=
  entry_map d (fun _ => rfl) n

@[simp] theorem get_settle (d : Folder α) (n : Name) : d.settle.get n = d.get n := by
  rw [get_eq, entry_settle, get_eq]

theorem mem_names (d : Folder α) (n : Name) : n ∈ d.names ↔ (d.get n).isSome := by
  unfold names
  rw [List.mem_filter]
  constructor
  · exact fun h => h.2
  · intro h
    refine ⟨?_, h⟩
    by_contra hnot
    have hnone : d.table.lookup n = none := AList.lookup_eq_none.mpr hnot
    rw [get, entry, hnone] at h
    cases h

theorem nodup_names (d : Folder α) : d.names.Nodup :=
  d.table.keys_nodup.filter _

end Folder

/-! ### Disks -/

/-- A directory of files and of directories of files. -/
structure Volume where
  files : Folder File := {}
  dirs : Folder (Folder File) := {}
deriving Inhabited

/-- What a crash takes: which version of each entry is left, and how many of the bytes
    of each file that were not synced. -/
structure Loss where
  version : List Name → Nat
  bytes : List Name → Nat

namespace Folder

/-- What a crash leaves of a directory. -/
def crash (l : Loss) (path : List Name) (d : Folder File) : Folder File :=
  d.map (fun n e =>
    { now := (e.pick (l.version (path ++ [n]))).map (File.lose (l.bytes (path ++ [n]))) })

theorem entry_crash (l : Loss) (path : List Name) (d : Folder File) (n : Name) :
    (d.crash l path).entry n =
      ⟨((d.entry n).pick (l.version (path ++ [n]))).map (File.lose (l.bytes (path ++ [n]))), []⟩ :=
  entry_map d (fun _ => by rw [Entry.pick_settled]; rfl) n

/-- The size of a file. -/
def size (d : Folder File) (n : Name) : Nat :=
  ((d.get n).map (fun f => f.data.length)).getD 0

/-- The bytes in a directory. -/
def bytes (d : Folder File) : Nat :=
  (d.names.map d.size).sum

/-- Some of the files take up no more than all of them. -/
theorem sum_le_bytes (d : Folder File) {ns : List Name} (hnodup : ns.Nodup)
    (hns : ∀ n ∈ ns, (d.get n).isSome) : (ns.map d.size).sum ≤ d.bytes := by
  have hsub : ns.Subperm d.names :=
    List.subperm_of_subset hnodup (fun n hn => (d.mem_names n).mpr (hns n hn))
  rcases hsub with ⟨l, hperm, hl⟩
  calc (ns.map d.size).sum = (l.map d.size).sum := ((hperm.map d.size).sum_eq).symm
    _ ≤ (d.names.map d.size).sum := (hl.map d.size).sum_le_sum (fun _ _ => Nat.zero_le _)

end Folder

namespace Volume

/-- The directory itself, or one in it. -/
def dir (disk : Volume) : Option Name → Option (Folder File)
  | none => some disk.files
  | some n => disk.dirs.get n

def modify (disk : Volume) (p : Option Name) (f : Folder File → Folder File) : Volume :=
  match p with
  | none => { disk with files := f disk.files }
  | some n => { disk with dirs := disk.dirs.edit n f }

/-- Write at the end of a file. -/
def grow (disk : Volume) (p : Option Name) (n : Name) (b : List UInt8) : Volume :=
  if b = [] then disk else disk.modify p (fun d => d.edit n (File.append b))

/-- The entries of a directory become durable. -/
def synced (disk : Volume) (p : Option Name) : Volume :=
  match p with
  | none => { files := disk.files.settle, dirs := disk.dirs.settle }
  | some n => disk.modify (some n) Folder.settle

/-- What is in a directory. -/
def list (disk : Volume) (p : Option Name) : Option (List Name) :=
  match p with
  | none => some (disk.files.names ++ disk.dirs.names)
  | some n => (disk.dirs.get n).map Folder.names

/-- What a crash leaves of a disk. -/
def crash (l : Loss) (disk : Volume) : Volume where
  files := disk.files.crash l []
  dirs := disk.dirs.map (fun n e => { now := (e.pick (l.version [n])).map (Folder.crash l [n]) })

/-- Whether the device has room for what is in a directory. -/
def fits (disk : Volume) (p : Option Name) : Bool :=
  match disk.dir p with
  | none => true
  | some d => d.bytes < 2 ^ 64

@[simp] theorem dir_none (disk : Volume) : disk.dir none = some disk.files := rfl

theorem dir_modify (disk : Volume) (p q : Option Name) (f : Folder File → Folder File) :
    (disk.modify p f).dir q = if q = p then (disk.dir p).map f else disk.dir q := by
  cases p with
  | none => cases q <;> simp [modify, dir]
  | some n =>
    cases q with
    | none => simp [modify, dir]
    | some m => simp [modify, dir, Folder.get_edit]

theorem past_dirs_modify (disk : Volume) (p : Option Name) (f : Folder File → Folder File)
    (m : Name) : ((disk.modify p f).dirs.entry m).past = (disk.dirs.entry m).past := by
  cases p with
  | none => rfl
  | some n =>
    change ((disk.dirs.edit n f).entry m).past = _
    rw [Folder.entry_edit]
    split
    · rename_i h
      rw [h]
    · rfl

theorem modify_modify (disk : Volume) (p : Option Name) (f g : Folder File → Folder File) :
    (disk.modify p f).modify p g = disk.modify p (g ∘ f) := by
  cases p with
  | none => rfl
  | some n => simp [modify, Folder.edit_edit]

theorem dir_synced (disk : Volume) (p q : Option Name) :
    (disk.synced p).dir q = if q = p then (disk.dir p).map Folder.settle else disk.dir q := by
  cases p with
  | none => cases q <;> simp [synced, dir]
  | some n => exact dir_modify disk (some n) q Folder.settle

@[simp] theorem grow_nil (disk : Volume) (p : Option Name) (n : Name) : disk.grow p n [] = disk :=
  if_pos rfl

theorem grow_grow (disk : Volume) (p : Option Name) (n : Name) (b c : List UInt8) :
    (disk.grow p n b).grow p n c = disk.grow p n (b ++ c) := by
  by_cases hb : b = []
  · rw [hb, grow_nil, List.nil_append]
  by_cases hc : c = []
  · rw [hc, grow_nil, List.append_nil]
  rw [grow, if_neg hc, grow, if_neg hb, modify_modify, grow, if_neg (by simp [hb])]
  congr 1
  funext d
  rw [Function.comp_apply, Folder.edit_edit]
  congr 1
  funext f
  exact File.append_append b c f

theorem entry_dirs_crash (l : Loss) (disk : Volume) (n : Name) : (disk.crash l).dirs.entry n =
    ⟨((disk.dirs.entry n).pick (l.version [n])).map (Folder.crash l [n]), []⟩ :=
  Folder.entry_map disk.dirs (fun _ => by rw [Entry.pick_settled]; rfl) n

/-- A crash leaves of a directory whose entry is synced what it leaves of its files. -/
theorem dir_crash (l : Loss) (disk : Volume) {p : Option Name} {d : Folder File}
    (hd : disk.dir p = some d) (hp : ∀ n ∈ p, (disk.dirs.entry n).past = []) :
    (disk.crash l).dir p = some (d.crash l p.toList) := by
  cases p with
  | none =>
    cases hd
    rfl
  | some n =>
    have hentry : disk.dirs.entry n = ⟨some d, []⟩ := by
      cases he : disk.dirs.entry n with
      | mk now past =>
        have hnow : now = some d := by
          change (disk.dirs.entry n).now = some d at hd
          rw [he] at hd
          exact hd
        have hpast := hp n rfl
        rw [he] at hpast
        rw [hnow, show past = [] from hpast]
    change ((disk.crash l).dirs.entry n).now = _
    rw [entry_dirs_crash, hentry, Entry.pick_settled]
    rfl

end Volume

/-! ### System calls -/

open Proc

def readFile (p : Option Name) (n : Name) : Proc Volume (Option (List UInt8)) :=
  call (fun disk => (((disk.dir p).bind (Folder.get · n)).map File.data, disk)) none

def listDir (p : Option Name) : Proc Volume (Option (List Name)) :=
  call (fun disk => (disk.list p, disk)) none

/-- What `mkdir` reports. -/
inductive Made where
  | made
  | taken
  | failed
deriving DecidableEq, Repr, Inhabited

def mkdir (n : Name) : Proc Volume Made :=
  call (fun disk =>
    if (disk.files.get n).isSome ∨ (disk.dirs.get n).isSome then (.taken, disk)
    else (.made, { disk with dirs := disk.dirs.put n (some {}) })) .failed

/-- Open a file, created if asked to. An exclusive open refuses a file that is there. -/
def openFile (p : Option Name) (n : Name) (create excl : Bool) : Proc Volume Bool :=
  call (fun disk =>
    match disk.dir p with
    | none => (false, disk)
    | some d =>
      if (d.get n).isSome then (!excl, disk)
      else if create then (true, disk.modify p (fun d => d.put n (some {})))
      else (false, disk)) false

/-- Open a file empty, created if need be. -/
def openTrunc (n : Name) : Proc Volume Bool :=
  call (fun disk =>
    if (disk.files.get n).isSome then
      (true, { disk with files := disk.files.edit n (fun _ => {}) })
    else (true, { disk with files := disk.files.put n (some {}) })) false

def truncate (p : Option Name) (n : Name) (k : Nat) : Proc Volume Bool :=
  call (fun disk => (true, disk.modify p (fun d => d.edit n (File.truncate k)))) false

def dataSync (p : Option Name) (n : Name) : Proc Volume Bool :=
  call (fun disk => (true, disk.modify p (fun d => d.edit n File.sync))) false

def syncDir (p : Option Name) : Proc Volume Bool :=
  call (fun disk => if (disk.dir p).isSome then (true, disk.synced p) else (false, disk)) false

/-- The file gets another name, in one step. -/
def rename (n m : Name) : Proc Volume Bool :=
  call (fun disk =>
    match disk.files.get n with
    | none => (false, disk)
    | some f => (true, { disk with files := (disk.files.put m (some f)).put n none })) false

/-- A file that is not there counts as removed. -/
def unlink (p : Option Name) (n : Name) : Proc Volume Bool :=
  call (fun disk => (true, disk.modify p (fun d => d.put n none))) false

def rmdir (n : Name) : Proc Volume Bool :=
  call (fun disk => (true, { disk with dirs := disk.dirs.put n none })) false

/-- Write at the end of a file until everything is written or a write fails. -/
def writeAll (p : Option Name) (n : Name) (b : List UInt8) : Proc Volume Bool := fun disk fs =>
  if b = [] then (some true, disk, fs)
  else
    match fs with
    | [] => if (disk.grow p n b).fits p then (some true, disk.grow p n b, [])
      else (some false, disk, [])
    | .ok :: fs =>
      if (disk.grow p n b).fits p then (some true, disk.grow p n b, fs) else (some false, disk, fs)
    | .fail :: fs => (some false, disk, fs)
    | .kill :: fs => (none, disk, fs)
    | .interrupted :: fs => writeAll p n b disk fs
    | .part k :: fs =>
      if k ≠ 0 ∧ (disk.grow p n (b.take k)).fits p then
        writeAll p n (b.drop k) (disk.grow p n (b.take k)) fs
      else (some false, disk, fs)
termination_by structural _ fs => fs

/-- How a write that has already written `pre` ends: some of the rest is written, all of it
    on success and not all of it otherwise. -/
def Wrote (F : Fate → Prop) (disk : Volume) (p : Option Name) (n : Name) (pre b : List UInt8)
    (o : Option Bool) (disk' : Volume) : Prop :=
  ∃ k ≤ b.length, disk' = disk.grow p n (pre ++ b.take k) ∧
    (o = some true → k = b.length ∧ (b ≠ [] → disk'.fits p)) ∧ (o ≠ some true → k < b.length) ∧
    (o = none → F .kill)

theorem Wrote.stop {F : Fate → Prop} {disk : Volume} {p : Option Name} {n : Name}
    {pre b : List UInt8} {o : Option Bool} (hb : b ≠ []) (ho : o ≠ some true)
    (hkill : o = none → F .kill) : Wrote F disk p n pre b o (disk.grow p n pre) :=
  ⟨0, Nat.zero_le _, by simp, fun h => absurd h ho, fun _ => List.length_pos_iff.mpr hb, hkill⟩

theorem Wrote.nothing {F : Fate → Prop} {disk : Volume} {p : Option Name} {n : Name}
    {pre b : List UInt8} (hb : b = []) : Wrote F disk p n pre b (some true) (disk.grow p n pre) :=
  ⟨0, Nat.zero_le _, by simp, fun _ => ⟨by simp [hb], fun h => absurd hb h⟩, by simp, by simp⟩

/-- One run of a write that has already written `pre`. -/
theorem writeAll_run {F : Fate → Prop} {disk : Volume} {p : Option Name} {n : Name}
    (fs : List Fate) :
    ∀ (pre b : List UInt8) (o : Option Bool) (disk' : Volume) (fs' : List Fate), (∀ f ∈ fs, F f) →
      writeAll p n b (disk.grow p n pre) fs = (o, disk', fs') →
      (∀ f ∈ fs', F f) ∧ Wrote F disk p n pre b o disk' := by
  -- Every branch that writes the rest at once.
  have hwhole : ∀ {b pre : List UInt8} {o : Option Bool} {disk' : Volume} {fs₁ fs' : List Fate},
      b ≠ [] → (if ((disk.grow p n pre).grow p n b).fits p then
        (some true, (disk.grow p n pre).grow p n b, fs₁) else (some false,
          disk.grow p n pre, fs₁)) =
        (o, disk', fs') → fs₁ = fs' ∧ Wrote F disk p n pre b o disk' := by
    intro b pre o disk' fs₁ fs' hb h
    split at h
    · rename_i hfits
      cases h
      refine ⟨rfl, b.length, le_refl _, ?_, fun _ => ⟨rfl, fun _ => hfits⟩,
        fun h => ?_, fun h => ?_⟩
      · rw [Volume.grow_grow, List.take_length]
      · exact absurd rfl h
      · cases h
    · cases h
      exact ⟨rfl, .stop hb (by decide) (by simp)⟩
  induction fs with
  | nil =>
    intro pre b o disk' fs' hfs hrun
    rw [writeAll.eq_def] at hrun
    by_cases hb : b = []
    · rw [if_pos hb] at hrun
      cases hrun
      exact ⟨hfs, .nothing hb⟩
    · rw [if_neg hb] at hrun
      rcases hwhole hb hrun with ⟨rfl, hk⟩
      exact ⟨hfs, hk⟩
  | cons f fs ih =>
    intro pre b o disk' fs' hfs hrun
    rw [writeAll.eq_def] at hrun
    have hfs₁ := fun g hg => hfs g (List.mem_cons_of_mem f hg)
    by_cases hb : b = []
    · rw [if_pos hb] at hrun
      cases hrun
      exact ⟨hfs, .nothing hb⟩
    rw [if_neg hb] at hrun
    cases f with
    | ok =>
      rcases hwhole hb hrun with ⟨rfl, hk⟩
      exact ⟨hfs₁, hk⟩
    | fail =>
      cases hrun
      exact ⟨hfs₁, .stop hb (by decide) (by simp)⟩
    | kill =>
      cases hrun
      exact ⟨hfs₁, .stop hb (by decide) (fun _ => hfs _ List.mem_cons_self)⟩
    | interrupted => exact ih pre b o disk' fs' hfs₁ hrun
    | part k =>
      dsimp only at hrun
      split at hrun
      · rename_i hk
        rw [Volume.grow_grow] at hrun hk
        rcases ih _ _ o disk' fs' hfs₁ hrun with ⟨hfs', m, hm, hdisk, htrue, hfalse, hnone⟩
        rw [List.length_drop] at hm
        by_cases hle : b.length ≤ k
        · -- The part was the whole, and nothing is left to write.
          have htake : b.take k = b := List.take_of_length_le hle
          have hm0 : m = 0 := by omega
          rw [hm0, List.take_zero, List.append_nil, htake] at hdisk
          refine ⟨hfs', b.length, le_refl _, by rw [List.take_length]; exact hdisk,
            fun h => ⟨rfl, fun _ => ?_⟩, fun h => ?_, hnone⟩
          · rw [hdisk, ← htake]
            exact hk.2
          · have := hfalse h
            rw [List.length_drop] at this
            omega
        · refine ⟨hfs', k + m, by omega, ?_, fun h => ?_, fun h => ?_, hnone⟩
          · rw [hdisk, List.append_assoc, List.take_add]
          · rcases htrue h with ⟨hm', hfits⟩
            rw [List.length_drop] at hm'
            refine ⟨by omega, fun _ => hfits ?_⟩
            intro hnil
            rw [List.drop_eq_nil_iff] at hnil
            exact hle hnil
          · have := hfalse h
            rw [List.length_drop] at this
            omega
      · cases hrun
        exact ⟨hfs₁, .stop hb (by decide) (by simp)⟩

/-- A write leaves a prefix of what it was given, and all of it when it reports success. -/
theorem writeAll_ends {F : Fate → Prop} {disk : Volume} {p : Option Name} {n : Name}
    {b : List UInt8} {Q : Bool → Volume → Prop} {R : Volume → Prop} (hb : b ≠ [])
    (hkill : F .kill → ∀ k < b.length, R (disk.grow p n (b.take k)))
    (hfail : ∀ k < b.length, Q false (disk.grow p n (b.take k)))
    (hok : (disk.grow p n b).fits p → Q true (disk.grow p n b)) :
    Ends F (writeAll p n b) disk Q R := by
  intro fs hfs o disk' fs' hrun
  rw [← disk.grow_nil p n] at hrun
  rcases writeAll_run fs [] b o disk' fs' hfs hrun with ⟨hfs', k, hk, rfl, htrue, hfalse, hnone⟩
  refine ⟨hfs', ?_⟩
  rw [List.nil_append] at htrue ⊢
  cases o with
  | none => exact hkill (hnone rfl) k (hfalse (by decide))
  | some r =>
    cases r with
    | false => exact hfail k (hfalse (by decide))
    | true =>
      rcases htrue rfl with ⟨rfl, hfits⟩
      rw [List.take_length] at hfits ⊢
      exact hok (hfits hb)

end Tautq
