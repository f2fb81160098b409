import Tautq.Theory.Segments

/-!
# What the Log's Operations Leave Behind

For each operation of the log: what holds when it returns, and what is on the disk
wherever it is killed.

A disk at rest has a pointer, an active directory, and segments in it that replay
to a list of bodies. A running log is on such a disk, with its last segment open and
without a torn tail. Every operation takes a running log to a running log or to one
that is stopped, on a disk at rest; an append that did not succeed can still have
left its body.

The fates the calls can have are a parameter. In strict states nothing fails and
nothing is killed, and every segment's entry is synced whenever an operation returns.
In loose ones anything can happen. A pointer is firm where a crash cannot take it back.

## Main definitions

* `Points`: `CURRENT` names the active directory.
* `AtRest`: A disk replays to a list of bodies.
* `Running`, `Live`: A log that takes appends.

## Theorems

* `openLog_ends`, `sync_ends`, `rotate_ends`, `put_ends`, `append_ends`: The operations.
* `AtRest.crash`: A crash leaves a prefix of the bodies, with the durable ones.
-/

namespace Tautq

open Proc

/-! ### Disks at rest -/

/-- `CURRENT` names the active directory. Where it is firm, a crash leaves it so. -/
def Points (firm : Bool) (disk : Volume) : Option Name → Prop
  | none => disk.files.get kCurrent = none ∧
      (firm = true → (disk.files.entry kCurrent).past = [])
  | some g => (∃ n f, g = genName n ∧ disk.files.get kCurrent = some f ∧ f.loose = [] ∧
        parseU64 f.safe = some n) ∧
      (firm = true → (disk.files.entry kCurrent).past = [] ∧ (disk.dirs.entry g).past = [])

/-- No directory is taken for a segment. -/
def Tidy (disk : Volume) : Prop :=
  ∀ n, isSegment n = true → ∀ v ∈ (disk.dirs.entry n).versions, v = none

section Crc

variable (crc : Bytes → UInt32)

/-- A disk replays to a list of bodies, and at least `durable` of them survive a crash. -/
structure AtRest (strict firm : Bool) (disk : Volume) (place : Option Name) (L : List Bytes)
    (durable : Nat) : Prop where
  points : Points firm disk place
  tidy : Tidy disk
  rests : ∃ d, disk.dir place = some d ∧ Carries crc strict d L durable

/-- A log that takes appends, with the given segments; the first `m` bodies of the last one
    are durable. -/
structure Running (strict firm : Bool) (disk : Volume) (w : Wal) (closed : List (List Bytes))
    (last : List Bytes) (file : File) (m : Nat) : Prop where
  points : Points firm disk w.activeDir
  tidy : Tidy disk
  dir : ∃ d, disk.dir w.activeDir = some d ∧ Lays crc strict d closed last file []
  fd : w.fd = some (w.activeDir, segmentName closed.flatten.length)
  failed : w.failed = false
  size : w.activeSize = (frames crc last).length
  lsn : w.nextLsn = closed.flatten.length + last.length
  le : m ≤ last.length
  safe : (frames crc (last.take m)).length ≤ file.safe.length

/-- A log that takes appends and holds a list of bodies. -/
def Live (strict firm : Bool) (disk : Volume) (w : Wal) (L : List Bytes) (durable : Nat) : Prop :=
  ∃ closed last file m, Running crc strict firm disk w closed last file m ∧
    L = closed.flatten ++ last ∧ durable ≤ closed.flatten.length + m

end Crc

variable {crc : Bytes → UInt32} {strict firm : Bool} {disk : Volume} {w : Wal}
  {closed : List (List Bytes)}
  {last : List Bytes} {file : File} {m : Nat} {L : List Bytes} {durable : Nat} {F : Fate → Prop}
  {place : Option Name}

theorem kCurrent_ne (n : Nat) : kCurrent ≠ segmentName n := by
  intro h
  have := isSegment_segmentName n
  rw [← h] at this
  revert this
  decide

theorem Points.modify (h : Points firm disk place) {q : Option Name} {f : Folder File → Folder File}
    (hf : ∀ d : Folder File, (f d).entry kCurrent = d.entry kCurrent) :
    Points firm (disk.modify q f) place := by
  have hfiles : (disk.modify q f).files.entry kCurrent = disk.files.entry kCurrent := by
    cases q with
    | none => exact hf disk.files
    | some n => rfl
  cases place with
  | none =>
    rw [Points, Folder.get_eq] at h ⊢
    rw [hfiles]
    exact h
  | some g =>
    rw [Points, Folder.get_eq] at h ⊢
    rw [Volume.past_dirs_modify, hfiles]
    exact h

theorem Tidy.modify (h : Tidy disk) {q : Option Name} {f : Folder File → Folder File} :
    Tidy (disk.modify q f) := by
  cases q with
  | none => exact h
  | some g =>
    intro n hn v hv
    change v ∈ ((disk.dirs.edit g f).entry n).versions at hv
    rw [Folder.entry_edit] at hv
    split at hv
    · rename_i heq
      rw [← heq, Folder.get_eq, h n hn _ List.mem_cons_self] at hv
      rcases List.mem_cons.mp hv with rfl | hv
      · rfl
      · exact h n hn v (List.mem_cons_of_mem _ hv)
    · exact h n hn v hv

/-- A change to the active directory that leaves the pointer alone. -/
theorem AtRest.of_modify {d : Folder File} {f : Folder File → Folder File}
    (hpoints : Points firm disk place) (htidy : Tidy disk) (hdir : disk.dir place = some d)
    (hf : ∀ d : Folder File, (f d).entry kCurrent = d.entry kCurrent)
    (hrests : Carries crc strict (f d) L durable) :
    AtRest crc strict firm (disk.modify place f) place L durable :=
  ⟨hpoints.modify hf, htidy.modify, f d, by rw [Volume.dir_modify, if_pos rfl, hdir]; rfl, hrests⟩

theorem entry_edit_kCurrent (n : Nat) (g : File → File) (d : Folder File) :
    (d.edit (segmentName n) g).entry kCurrent = d.entry kCurrent := by
  rw [Folder.entry_edit, if_neg (kCurrent_ne n)]

theorem entry_put_kCurrent (n : Nat) (v : Option File) (d : Folder File) :
    (d.put (segmentName n) v).entry kCurrent = d.entry kCurrent := by
  rw [Folder.entry_put, if_neg (kCurrent_ne n)]

namespace Running

/-- What a running log holds is on its disk. -/
theorem atRest (h : Running crc strict firm disk w closed last file m)
    (hd : durable ≤ closed.flatten.length + m) :
    AtRest crc strict firm disk w.activeDir (closed.flatten ++ last) durable := by
  rcases h.dir with ⟨d, hdir, hlays⟩
  exact ⟨h.points, h.tidy, d, hdir, .lays hlays m h.le h.safe hd⟩

/-- The first body of a segment makes its size positive. -/
theorem last_ne_nil (h : Running crc strict firm disk w closed last file m)
    (hpos : 0 < w.activeSize) : last ≠ [] := by
  rintro rfl
  rw [h.size, frames_nil] at hpos
  exact Nat.lt_irrefl 0 hpos

end Running

theorem Live.atRest (h : Live crc strict firm disk w L durable) :
    AtRest crc strict firm disk w.activeDir L durable := by
  rcases h with ⟨closed, last, file, m, hrun, rfl, hd⟩
  exact hrun.atRest hd

/-- The next sequence number is the number of bodies. -/
theorem Live.nextLsn (h : Live crc strict firm disk w L durable) : w.nextLsn = L.length := by
  rcases h with ⟨closed, last, file, m, hrun, rfl, _⟩
  rw [List.length_append]
  exact hrun.lsn

/-! ### What does not count on a crash -/

theorem Points.weaken (h : Points firm disk place) : Points false disk place := by
  cases place with
  | none => exact ⟨h.1, by simp⟩
  | some g => exact ⟨h.1, by simp⟩

theorem AtRest.weaken (h : AtRest crc strict firm disk place L durable) :
    AtRest crc false false disk place L durable := by
  rcases h.rests with ⟨d, hdir, hrests⟩
  refine ⟨h.points.weaken, h.tidy, d, hdir, ?_⟩
  cases hrests with
  | bare hbare => exact .bare hbare
  | lays hlays m hm hsafe hd => exact .lays hlays.weaken m hm hsafe hd

theorem Live.weaken (h : Live crc strict firm disk w L durable) :
    Live crc false false disk w L durable := by
  rcases h with ⟨closed, last, file, m, hrun, hL, hd⟩
  rcases hrun.dir with ⟨d, hdir, hlays⟩
  exact ⟨closed, last, file, m, ⟨hrun.points.weaken, hrun.tidy, ⟨d, hdir, hlays.weaken⟩,
    hrun.fd, hrun.failed, hrun.size, hrun.lsn, hrun.le, hrun.safe⟩, hL, hd⟩

/-! ### Syncing -/

theorem sync_ends (h : Running crc strict firm disk w closed last file m) :
    Ends F w.sync disk (fun r disk' =>
      (r = (true, w) ∧ Running crc strict firm disk' w closed last file.sync last.length) ∨
        (r = (false, { w with failed := true }) ∧ disk' = disk ∧ F .fail))
      (fun disk' => disk' = disk ∧ F .kill) := by
  unfold Wal.sync
  rw [h.fd]
  simp only [h.failed, Bool.false_eq_true, if_false]
  refine (Ends.of_call _ _).bind (fun ok disk' hok => ?_)
  rcases h.dir with ⟨d, hdir, hlays⟩
  rcases hok with ⟨rfl, rfl⟩ | ⟨rfl, rfl, hfail⟩
  · refine .pure (.inl ⟨rfl, ?_⟩)
    exact
      { points := h.points.modify (fun d => entry_edit_kCurrent _ _ d)
        tidy := h.tidy.modify
        dir := ⟨_, by rw [Volume.dir_modify, if_pos rfl, hdir]; rfl, hlays.sync⟩
        fd := h.fd
        failed := h.failed
        size := h.size
        lsn := h.lsn
        le := le_refl _
        safe := by
          have hdata := hlays.data
          rw [List.append_nil] at hdata
          rw [List.take_length, File.sync, hdata] }
  · exact .pure (.inr ⟨rfl, rfl, hfail⟩)

/-! ### Segments -/

theorem Points.synced (h : Points firm disk place) (p : Option Name) :
    Points firm (disk.synced p) place := by
  have hfiles : (disk.synced p).files.get kCurrent = disk.files.get kCurrent ∧
      ((disk.files.entry kCurrent).past = [] →
      ((disk.synced p).files.entry kCurrent).past = []) := by
    cases p with
    | none =>
      change disk.files.settle.get kCurrent = _ ∧ (_ → (disk.files.settle.entry kCurrent).past = [])
      rw [Folder.get_settle, Folder.entry_settle]
      exact ⟨rfl, fun _ => rfl⟩
    | some n => exact ⟨rfl, id⟩
  cases place with
  | none => exact ⟨hfiles.1.trans h.1, fun hfirm => hfiles.2 (h.2 hfirm)⟩
  | some g =>
    rcases h with ⟨⟨n, f, hg, hget, hrest⟩, hpast⟩
    refine ⟨⟨n, f, hg, hfiles.1.trans hget, hrest⟩, fun hfirm => ⟨hfiles.2 (hpast hfirm).1, ?_⟩⟩
    cases p with
    | none =>
      change (disk.dirs.settle.entry g).past = []
      rw [Folder.entry_settle]
    | some q => exact (Volume.past_dirs_modify disk (some q) _ g).trans (hpast hfirm).2

theorem Tidy.synced (h : Tidy disk) (p : Option Name) : Tidy (disk.synced p) := by
  cases p with
  | none =>
    intro n hn v hv
    change v ∈ (disk.dirs.settle.entry n).versions at hv
    rw [Folder.entry_settle] at hv
    rw [List.mem_singleton.mp hv]
    exact h n hn _ List.mem_cons_self
  | some q => exact h.modify

theorem create_ends {d : Folder File} {n : Name} (hdir : disk.dir w.activeDir = some d)
    (hnew : d.get n = none) : Ends F (w.openActive n true) disk (fun r disk' =>
      (r = (true, { w with fd := some (w.activeDir, n) }) ∧
        disk' = disk.modify w.activeDir (fun d => d.put n (some {}))) ∨
      (r = (false, { w with fd := none }) ∧ disk' = disk ∧ F .fail))
      (fun disk' => disk' = disk ∧ F .kill) := by
  refine (Ends.of_call _ _).bind (fun ok disk' hok => ?_)
  simp only [hdir, hnew, Option.isSome_none, Bool.false_eq_true, if_false, if_true] at hok
  rcases hok with ⟨rfl, rfl⟩ | ⟨rfl, rfl, hfail⟩
  · exact .pure (.inl ⟨rfl, rfl⟩)
  · exact .pure (.inr ⟨rfl, rfl, hfail⟩)

theorem reopen_ends {d : Folder File} {n : Name} {f : File} (hdir : disk.dir w.activeDir = some d)
    (hf : d.get n = some f) (create : Bool) : Ends F (w.openActive n create) disk (fun r disk' =>
      disk' = disk ∧ (r = (true, { w with fd := some (w.activeDir, n) }) ∨
        (r = (false, { w with fd := none }) ∧ F .fail)))
      (fun disk' => disk' = disk ∧ F .kill) := by
  refine (Ends.of_call _ _).bind (fun ok disk' hok => ?_)
  simp only [hdir, hf, Option.isSome_some, if_true, Bool.not_false] at hok
  rcases hok with ⟨rfl, rfl⟩ | ⟨rfl, rfl, hfail⟩
  · exact .pure ⟨rfl, .inl rfl⟩
  · exact .pure ⟨rfl, .inr ⟨rfl, hfail⟩⟩

/-- A directory that lies strictly lies loosely. -/
theorem Lays.of_strict {d : Folder File} {tail : Bytes}
    (h : Lays crc true d closed last file tail) : Lays crc strict d closed last file tail := by
  cases strict with
  | true => exact h
  | false => exact h.weaken

theorem rotate_ends (h : Running crc strict firm disk w closed last file m) (hlast : last ≠ [])
    (hF : strict = true → ∀ f, F f → f = .ok) (hd : durable ≤ closed.flatten.length + m) :
    Ends F w.rotate disk (fun r disk' =>
      (r.1 = true ∧ r.2.segmentBytes = w.segmentBytes ∧ r.2.activeDir = w.activeDir ∧
        Running crc strict firm disk' r.2 (closed ++ [last]) [] {} 0) ∨
      (r.1 = false ∧ r.2.failed = true ∧ F .fail ∧
        AtRest crc strict firm disk' w.activeDir (closed.flatten ++ last) durable))
      (fun disk' => F .kill ∧
      AtRest crc strict firm disk' w.activeDir (closed.flatten ++ last) durable) := by
  have hflat : (closed ++ [last]).flatten = closed.flatten ++ last := by simp
  have hle := h.le
  refine (sync_ends h).seq (fun disk' hk => ⟨hk.2, hk.1 ▸ h.atRest hd⟩) (fun r disk₁ hr => ?_)
  rcases hr with ⟨rfl, h₁⟩ | ⟨rfl, rfl, hfail⟩
  swap
  · exact .pure (.inr ⟨rfl, rfl, hfail, h.atRest hd⟩)
  rw [if_pos rfl]
  rcases h₁.dir with ⟨d, hdir, hlays⟩
  have hrest₁ : AtRest crc strict firm disk₁ w.activeDir (closed.flatten ++ last) durable :=
    h₁.atRest (by omega)
  have hnew : d.get (segmentName w.nextLsn) = none := by
    rw [h.lsn]
    exact hlays.next_unused hlast _ List.mem_cons_self
  refine (create_ends hdir hnew).seq (fun disk' hk => ⟨hk.2, hk.1 ▸ hrest₁⟩) (fun r disk₂ hr => ?_)
  rcases hr with ⟨rfl, rfl⟩ | ⟨rfl, rfl, hfail⟩
  swap
  · exact .pure (.inr ⟨rfl, rfl, hfail, hrest₁⟩)
  rw [if_pos rfl]
  have hnext := hlays.next hlast rfl
  rw [← h.lsn] at hnext
  have hdir₂ : (disk₁.modify w.activeDir (fun d => d.put (segmentName w.nextLsn) (some {}))).dir
      w.activeDir = some (d.put (segmentName w.nextLsn) (some {})) := by
    rw [Volume.dir_modify, if_pos rfl, hdir]
    rfl
  have hpoints₂ := h₁.points.modify (q := w.activeDir) (entry_put_kCurrent w.nextLsn (some {}))
  have htidy₂ :
      Tidy (disk₁.modify w.activeDir (fun d => d.put (segmentName w.nextLsn) (some {}))) :=
    h₁.tidy.modify
  -- Only in a loose state can it end here, with the new entry not synced.
  have hrest₂ : strict = false → AtRest crc strict firm (disk₁.modify w.activeDir
      (fun d => d.put (segmentName w.nextLsn) (some {}))) w.activeDir
      (closed.flatten ++ last) durable := by
    rintro rfl
    refine ⟨hpoints₂, htidy₂, _, hdir₂, ?_⟩
    have hrests : Carries crc false (d.put (segmentName w.nextLsn) (some {}))
        ((closed ++ [last]).flatten ++ []) durable :=
      .lays hnext 0 (Nat.zero_le _) (Nat.zero_le _) (by rw [hflat, List.length_append]; omega)
    rwa [hflat, List.append_nil] at hrests
  have hloose : ∀ f, F f → f ≠ .ok → strict = false := fun f hf hne =>
    Bool.eq_false_iff.mpr (fun hs => hne (hF hs f hf))
  refine (Ends.of_call _ _).seq (fun disk' hk => ⟨hk.2, hk.1 ▸ hrest₂ (hloose _ hk.2 (by decide))⟩)
    (fun ok disk₃ hok => ?_)
  simp only [hdir₂, Option.isSome_some, if_true] at hok
  rcases hok with ⟨rfl, rfl⟩ | ⟨rfl, rfl, hfail⟩
  · refine .pure (.inl ⟨rfl, rfl, rfl, ?_⟩)
    exact
      { points := hpoints₂.synced _
        tidy := htidy₂.synced _
        dir := ⟨_, by rw [Volume.dir_synced, if_pos rfl, hdir₂]; rfl, hnext.settle.of_strict⟩
        fd := by simp only [h.lsn, hflat, List.length_append]
        failed := h.failed
        size := rfl
        lsn := by simp only [h.lsn, hflat, List.length_append, List.length_nil, Nat.add_zero]
        le := le_refl _
        safe := le_refl _ }
  · exact .pure (.inr ⟨rfl, rfl, hfail, hrest₂ (hloose _ hfail (by decide))⟩)

/-! ### Appending -/

theorem frame_ne_nil (body : Bytes) : frame crc body ≠ [] := by
  intro h
  have := congrArg List.length h
  rw [length_frame, kFrameHeader, List.length_nil] at this
  omega

/-- A frame written in part does not count. -/
theorem Running.cut (h : Running crc strict firm disk w closed last file m) {body : Bytes}
    (hbody : Framable body) (hd : durable ≤ closed.flatten.length + m) {k : Nat}
    (hk : k < (frame crc body).length) :
    AtRest crc strict firm
    (disk.grow w.activeDir (segmentName closed.flatten.length) ((frame crc body).take k))
      w.activeDir (closed.flatten ++ last) durable := by
  by_cases hnil : (frame crc body).take k = []
  · rw [hnil, Volume.grow_nil]
    exact h.atRest hd
  · rcases h.dir with ⟨d, hdir, hlays⟩
    rw [Volume.grow, if_neg hnil]
    refine .of_modify h.points h.tidy hdir (entry_edit_kCurrent _ _) ?_
    exact .lays (hlays.cut hbody hk) m h.le h.safe hd

/-- A whole frame is written to the last segment. The device has room for it, so there are fewer
    than `2 ^ 64` of them. -/
theorem Lays.grow {d : Folder File} {p : Option Name}
    (hlays : Lays crc strict d closed last file [])
    (hdir : disk.dir p = some d) {body : Bytes} (hbody : Framable body)
    (hfits : (disk.grow p (segmentName closed.flatten.length) (frame crc body)).fits p) :
    ∃ d', (disk.grow p (segmentName closed.flatten.length) (frame crc body)).dir p = some d' ∧
      Lays crc strict d' closed (last ++ [body]) (file.append (frame crc body)) [] := by
  have hdir' : (disk.grow p (segmentName closed.flatten.length) (frame crc body)).dir p =
      some (d.edit (segmentName closed.flatten.length) (File.append (frame crc body))) := by
    rw [Volume.grow, if_neg (frame_ne_nil body), Volume.dir_modify, if_pos rfl, hdir]
    rfl
  have hdata : (file.append (frame crc body)).data = frames crc (last ++ [body]) ++ [] := by
    rw [File.data_append, hlays.data]
    simp
  have hcount := hlays.count_le_bytes (File.append (frame crc body)) hdata
  rw [List.length_append, List.length_singleton] at hcount
  rw [Volume.fits, hdir'] at hfits
  have := of_decide_eq_true hfits
  exact ⟨_, hdir', hlays.write hbody (by omega)⟩

/-- A whole frame is written. -/
theorem Running.write (h : Running crc strict firm disk w closed last file m) {body : Bytes}
    (hbody : Framable body)
    (hfits : (disk.grow w.activeDir (segmentName closed.flatten.length) (frame crc body)).fits
    w.activeDir) : Running crc strict firm
    (disk.grow w.activeDir (segmentName closed.flatten.length) (frame crc body))
      { w with activeSize := w.activeSize + (kFrameHeader + body.length),
               nextLsn := (w.nextLsn + 1) % 2 ^ 64 }
      closed (last ++ [body]) (file.append (frame crc body)) m := by
  rcases h.dir with ⟨d, hdir, hlays⟩
  rcases hlays.grow hdir hbody hfits with ⟨d', hdir', hlays'⟩
  have hfew := hlays'.few
  rw [List.length_append, List.length_singleton] at hfew
  exact
    { points := by
        rw [Volume.grow, if_neg (frame_ne_nil body)]
        exact h.points.modify (entry_edit_kCurrent _ _)
      tidy := by
        rw [Volume.grow, if_neg (frame_ne_nil body)]
        exact h.tidy.modify
      dir := ⟨d', hdir', hlays'⟩
      fd := h.fd
      failed := h.failed
      size := by simp [h.size]
      lsn := by
        change (w.nextLsn + 1) % 2 ^ 64 = _
        rw [h.lsn, List.length_append, List.length_singleton, Nat.mod_eq_of_lt (by omega)]
        omega
      le := by
        have := h.le
        rw [List.length_append]
        omega
      safe := by
        rw [List.take_append_of_le_length h.le]
        exact h.safe }

theorem put_ends (h : Running crc strict firm disk w closed last file m) {body : Bytes}
    (hbody : Framable body) (hd : durable ≤ closed.flatten.length + m) (doSync : Bool) :
    Ends F (w.put crc body doSync) disk (fun r disk' =>
      (r.1 = true ∧ r.2.segmentBytes = w.segmentBytes ∧ r.2.activeDir = w.activeDir ∧
        Live crc strict firm disk' r.2 (closed.flatten ++ last ++ [body])
          (if doSync then closed.flatten.length + last.length + 1 else durable)) ∨
      (r.1 = false ∧ r.2.failed = true ∧
        (AtRest crc strict firm disk' w.activeDir (closed.flatten ++ last) durable ∨
          F .fail ∧
          AtRest crc strict firm disk' w.activeDir (closed.flatten ++ last ++ [body]) durable)))
      (fun disk' => F .kill ∧
      (AtRest crc strict firm disk' w.activeDir (closed.flatten ++ last) durable ∨
        AtRest crc strict firm disk' w.activeDir (closed.flatten ++ last ++ [body]) durable)) := by
  unfold Wal.put
  rw [h.fd]
  change Ends F (w.putAt crc w.activeDir (segmentName closed.flatten.length) body doSync) disk _ _
  refine Ends.bind (Q := fun ok disk' => (ok = true ∧
      disk' = disk.grow w.activeDir (segmentName closed.flatten.length) (frame crc body) ∧
      disk'.fits w.activeDir) ∨
      (ok = false ∧ AtRest crc strict firm disk' w.activeDir (closed.flatten ++ last) durable))
    (writeAll_ends (frame_ne_nil body) (fun hkill k hk => ⟨hkill, .inl (h.cut hbody hd hk)⟩)
      (fun k hk => .inr ⟨rfl, h.cut hbody hd hk⟩) (fun hfits => .inl ⟨rfl, rfl, hfits⟩))
    (fun ok disk₁ hok => ?_)
  rcases hok with ⟨rfl, rfl, hfits⟩ | ⟨rfl, hrest⟩
  swap
  · exact .pure (.inr ⟨rfl, rfl, .inl hrest⟩)
  have hrun := h.write hbody hfits
  rw [if_pos rfl]
  cases doSync with
  | false =>
    refine .pure (.inl ⟨rfl, rfl, rfl, ?_⟩)
    exact ⟨_, _, _, _, hrun, by rw [List.append_assoc], hd⟩
  | true =>
    have hrest : AtRest crc strict firm (disk.grow w.activeDir (segmentName closed.flatten.length)
        (frame crc body)) w.activeDir (closed.flatten ++ last ++ [body]) durable := by
      rw [List.append_assoc]
      exact hrun.atRest hd
    simp only [if_true]
    refine (sync_ends hrun).mono (fun r disk₂ hr => ?_)
      (fun disk' hk => ⟨hk.2, .inr (hk.1 ▸ hrest)⟩)
    rcases hr with ⟨rfl, hsynced⟩ | ⟨rfl, rfl, hfail⟩
    · refine .inl ⟨rfl, rfl, rfl, _, _, _, _, hsynced, by rw [List.append_assoc], ?_⟩
      rw [List.length_append, List.length_singleton]
      omega
    · exact .inr ⟨rfl, rfl, .inr ⟨hfail, hrest⟩⟩

theorem sync_failed (hfailed : w.failed = true) : w.sync = pure (false, w) := by
  unfold Wal.sync
  split
  · rfl
  · exact if_pos hfailed

/-- A log that is stopped takes nothing. -/
theorem append_failed (h : w.failed = true) (body : Bytes) (doSync : Bool) :
    w.append crc body doSync = pure (false, w) :=
  if_pos (Or.inr (Or.inl h))

/-- Nor does any log take a body it has no frame for. -/
theorem append_refused {body : Bytes} (h : ¬ Framable body) (doSync : Bool) :
    w.append crc body doSync = pure (false, w) := by
  refine if_pos (Or.inr (Or.inr ?_))
  by_contra hnot
  rw [not_or] at hnot
  exact h ⟨hnot.1, Nat.le_of_not_lt hnot.2⟩

theorem append_ends (h : Live crc strict firm disk w L durable) {body : Bytes}
    (hbody : Framable body) (hF : strict = true → ∀ f, F f → f = .ok) (doSync : Bool) :
    Ends F (w.append crc body doSync) disk (fun r disk' =>
      (r.1 = true ∧ r.2.segmentBytes = w.segmentBytes ∧ r.2.activeDir = w.activeDir ∧
        Live crc strict firm disk' r.2 (L ++ [body]) (if doSync then L.length + 1 else durable)) ∨
      (r.1 = false ∧ r.2.failed = true ∧ (AtRest crc strict firm disk' w.activeDir L durable ∨
        F .fail ∧ AtRest crc strict firm disk' w.activeDir (L ++ [body]) durable)))
      (fun disk' => F .kill ∧ (AtRest crc strict firm disk' w.activeDir L durable ∨
        AtRest crc strict firm disk' w.activeDir (L ++ [body]) durable)) := by
  rcases h with ⟨closed, last, file, m, hrun, rfl, hd⟩
  have hle := hrun.le
  have hopen : ¬ (w.fd = none ∨ w.failed = true ∨ body = [] ∨ kMaxBody < body.length) := by
    rw [hrun.fd, hrun.failed]
    simp only [reduceCtorEq, Bool.false_eq_true, false_or, not_or]
    exact ⟨hbody.1, Nat.not_lt.mpr hbody.2⟩
  unfold Wal.append
  rw [if_neg hopen, List.length_append]
  refine .ite (fun hrot => ?_) (fun _ => put_ends hrun hbody hd doSync)
  refine (rotate_ends hrun (hrun.last_ne_nil hrot.1) hF hd).seq (fun disk' hk => ⟨hk.1, .inl hk.2⟩)
    (fun r disk₁ hr => ?_)
  rcases hr with ⟨hok, hsize, hplace, h₁⟩ | ⟨hok, hstop, _, hrest⟩
  · -- The frame goes to the new segment.
    rw [if_pos hok]
    have hd₁ : durable ≤ (closed ++ [last]).flatten.length + 0 := by
      simp only [List.flatten_append, List.flatten_singleton, List.length_append]
      omega
    have hput := put_ends (F := F) h₁ hbody hd₁ doSync
    simp only [List.flatten_append, List.flatten_singleton, List.append_nil, List.length_nil,
      List.length_append, Nat.add_zero, hplace, hsize] at hput
    exact hput
  · rw [if_neg (by simp [hok])]
    exact .pure (.inr ⟨hok, hstop, .inl hrest⟩)

/-! ### Opening -/

/-- How opening a log ends: it runs, with what the disk held, or a call failed and the disk is
    as good as before. -/
def Replayed (crc : Bytes → UInt32) (F : Fate → Prop) (strict firm : Bool) (place : Option Name)
    (L : List Bytes) (durable segmentBytes : Nat) (r : Opened) (disk : Volume) : Prop :=
  (r.ok = true ∧ r.bodies = L ∧ r.wal.activeDir = place ∧ r.wal.segmentBytes = segmentBytes ∧
    Live crc strict firm disk r.wal L durable) ∨
  (r.ok = false ∧ F .fail ∧ AtRest crc strict firm disk place L durable)

section Open

variable {d : Folder File} {tail : Bytes}

theorem openLast_ends (hpoints : Points firm disk w.activeDir) (htidy : Tidy disk)
    (hdir : disk.dir w.activeDir = some d) (hlays : Lays crc strict d closed last file [])
    (hm : m ≤ last.length) (hsafe : (frames crc (last.take m)).length ≤ file.safe.length)
    (hd : durable ≤ closed.flatten.length + m) (hfailed : w.failed = false)
    (hlsn : w.nextLsn = closed.flatten.length + last.length) :
    Ends F (w.openLast (segmentName closed.flatten.length) (frames crc last).length
        (closed.flatten ++ last)) disk
      (Replayed crc F strict firm w.activeDir (closed.flatten ++ last) durable w.segmentBytes)
      (fun disk' => F .kill ∧
      AtRest crc strict firm disk' w.activeDir (closed.flatten ++ last) durable) := by
  have hrest : AtRest crc strict firm disk w.activeDir (closed.flatten ++ last) durable :=
    ⟨hpoints, htidy, d, hdir, .lays hlays m hm hsafe hd⟩
  refine (reopen_ends hdir hlays.get_final false).seq (fun disk' hk => ⟨hk.2, hk.1 ▸ hrest⟩)
    (fun r disk' hr => ?_)
  rcases hr with ⟨rfl, rfl | ⟨rfl, hfail⟩⟩
  · refine .pure (.inl ⟨rfl, rfl, rfl, rfl, closed, last, file, m, ?_, rfl, hd⟩)
    exact
      { points := hpoints
        tidy := htidy
        dir := ⟨d, hdir, hlays⟩
        fd := rfl
        failed := hfailed
        size := rfl
        lsn := hlsn
        le := hm
        safe := hsafe }
  · exact .pure (.inr ⟨rfl, hfail, hrest⟩)

/-- Replaying the last segment cuts its torn tail away. -/
theorem replayLast_ends (hpoints : Points firm disk w.activeDir) (htidy : Tidy disk)
    (hdir : disk.dir w.activeDir = some d) (hlays : Lays crc strict d closed last file tail)
    (hm : m ≤ last.length) (hsafe : (frames crc (last.take m)).length ≤ file.safe.length)
    (hd : durable ≤ closed.flatten.length + m) (hfailed : w.failed = false)
    (hlsn : w.nextLsn = closed.flatten.length) :
    Ends F (w.replayFrom crc closed.flatten [segmentName closed.flatten.length]) disk
      (Replayed crc F strict firm w.activeDir (closed.flatten ++ last) durable w.segmentBytes)
      (fun disk' => F .kill ∧
      AtRest crc strict firm disk' w.activeDir (closed.flatten ++ last) durable) := by
  have hrest : AtRest crc strict firm disk w.activeDir (closed.flatten ++ last) durable :=
    ⟨hpoints, htidy, d, hdir, .lays hlays m hm hsafe hd⟩
  have hscan := scanFrames_frames hlays.torn (fun b hb => hlays.good b (List.mem_append_right _ hb))
  have hlsn' : (w.nextLsn + last.length) % 2 ^ 64 = closed.flatten.length + last.length := by
    rw [hlsn, Nat.mod_eq_of_lt hlays.few]
  refine (Ends.of_call _ _).seq (fun disk' hk => ⟨hk.2, hk.1 ▸ hrest⟩) (fun o disk' ho => ?_)
  simp only [hdir, Option.bind_some, hlays.get_final, Option.map_some, hlays.data] at ho
  rcases ho with ⟨rfl, rfl⟩ | ⟨rfl, rfl, hfail⟩
  swap
  · exact .pure (.inr ⟨rfl, hfail, hrest⟩)
  simp only [hscan, hlsn', ne_eq, not_true_eq_false, if_false]
  refine .ite (fun _ => ?_) (fun hclean => ?_)
  · have hsafe' : (frames crc (last.take m)).length ≤
        (file.truncate (frames crc last).length).safe.length := by
      have hle : (frames crc (last.take m)).length ≤ (frames crc last).length := by
        conv_rhs => rw [← List.take_append_drop m last, frames_append, List.length_append]
        omega
      rw [File.truncate, List.length_take]
      omega
    refine (Ends.of_call _ _).seq (fun disk' hk => ⟨hk.2, hk.1 ▸ hrest⟩) (fun ok disk' hok => ?_)
    rcases hok with ⟨rfl, rfl⟩ | ⟨rfl, rfl, hfail⟩
    · exact openLast_ends (w := { w with nextLsn := closed.flatten.length + last.length })
        (hpoints.modify (entry_edit_kCurrent _ _)) htidy.modify
        (by rw [Volume.dir_modify, if_pos rfl, hdir]; rfl) hlays.trim hm hsafe' hd hfailed rfl
    · exact .pure (.inr ⟨rfl, hfail, hrest⟩)
  · have htail : tail = [] := by
      rw [not_not, List.length_append] at hclean
      exact List.length_eq_zero_iff.mp (by omega)
    rw [htail] at hlays
    exact openLast_ends (w := { w with nextLsn := closed.flatten.length + last.length })
      hpoints htidy hdir hlays hm hsafe hd hfailed rfl

/-- Replaying the segments in order gives the bodies in order. -/
theorem replayFrom_ends {rest : List (List Bytes)} (htidy : Tidy disk) (pre : List (List Bytes))
    (hm : m ≤ last.length) (hsafe : (frames crc (last.take m)).length ≤ file.safe.length)
    (hlays : Lays crc strict d (pre ++ rest) last file tail)
    (hd : durable ≤ (pre ++ rest).flatten.length + m) {w : Wal}
    (hpoints : Points firm disk w.activeDir)
    (hdir : disk.dir w.activeDir = some d) (hfailed : w.failed = false)
    (hlsn : w.nextLsn = pre.flatten.length) :
    Ends F (w.replayFrom crc pre.flatten
    ((segs pre.flatten.length rest).map (fun x => segmentName x.1) ++
        [segmentName (pre ++ rest).flatten.length])) disk
      (Replayed crc F strict firm w.activeDir ((pre ++ rest).flatten ++ last) durable
      w.segmentBytes) (fun disk' => F .kill ∧
        AtRest crc strict firm disk' w.activeDir ((pre ++ rest).flatten ++ last) durable) := by
  induction rest generalizing pre w with
  | nil =>
    simp only [List.append_nil] at hlays hd ⊢
    exact replayLast_ends hpoints htidy hdir hlays hm hsafe hd hfailed hlsn
  | cons c cs ih =>
    have hassoc : pre ++ c :: cs = (pre ++ [c]) ++ cs := by simp
    have hflat : (pre ++ [c]).flatten = pre.flatten ++ c := by simp
    have hmem : (pre.flatten.length, c) ∈ segs 0 (pre ++ c :: cs) := by
      rw [segs_append, Nat.zero_add]
      exact List.mem_append_right _ List.mem_cons_self
    have hrest :
        AtRest crc strict firm disk w.activeDir ((pre ++ c :: cs).flatten ++ last) durable :=
      ⟨hpoints, htidy, d, hdir, .lays hlays m hm hsafe hd⟩
    have hgood : ∀ b ∈ c, Framable b := fun b hb => hlays.good b (List.mem_append_left _ (by
      rw [List.flatten_append, List.flatten_cons]
      exact List.mem_append_right _ (List.mem_append_left _ hb)))
    have hscan := scanFrames_frames (torn_nil : Torn crc []) hgood
    rw [List.append_nil] at hscan
    have hlsn' : (w.nextLsn + c.length) % 2 ^ 64 = (pre ++ [c]).flatten.length := by
      have hfew := hlays.few
      rw [List.flatten_append, List.flatten_cons, List.length_append, List.length_append] at hfew
      rw [hlsn, hflat, List.length_append, Nat.mod_eq_of_lt (by omega)]
    refine (Ends.of_call _ _).seq (fun disk' hk => ⟨hk.2, hk.1 ▸ hrest⟩) (fun o disk' ho => ?_)
    simp only [hdir, Option.bind_some, hlays.get_shut hmem, Option.map_some, File.data,
      List.append_nil] at ho
    rcases ho with ⟨rfl, rfl⟩ | ⟨rfl, rfl, hfail⟩
    swap
    · exact .pure (.inr ⟨rfl, hfail, hrest⟩)
    simp only [hscan, hlsn', ne_eq, not_true_eq_false, if_false]
    rw [if_pos (by simp)]
    rw [hassoc] at hlays hd ⊢
    have hnext := ih (pre ++ [c]) hlays hd
      (w := { w with nextLsn := (pre ++ [c]).flatten.length }) hpoints hdir hfailed rfl
    rw [hflat, List.length_append] at hnext ⊢
    exact hnext

/-- The active directory is there already. -/
theorem mkdirActive_ends (hdir : disk.dir w.activeDir = some d) :
    Ends F w.mkdirActive disk (fun r disk' => disk' = disk ∧ (r = .taken ∨ r = .failed ∧ F .fail))
      (fun disk' => disk' = disk ∧ F .kill) := by
  unfold Wal.mkdirActive
  cases hplace : w.activeDir with
  | none => exact .pure ⟨rfl, .inl rfl⟩
  | some g =>
    rw [hplace] at hdir
    refine (Ends.of_call _ _).mono (fun r disk' h => ?_) (fun disk' hk => hk)
    have htaken : (disk.files.get g).isSome = true ∨ (disk.dirs.get g).isSome = true := by
      right
      change (disk.dir (some g)).isSome = true
      rw [hdir]
      rfl
    simp only [if_pos htaken] at h
    rcases h with ⟨rfl, rfl⟩ | ⟨rfl, rfl, hfail⟩
    · exact ⟨rfl, .inl rfl⟩
    · exact ⟨rfl, .inr ⟨rfl, hfail⟩⟩

/-- A directory without segments gets its first one. -/
theorem createFirst_ends (hpoints : Points firm disk w.activeDir) (htidy : Tidy disk)
    (hdir : disk.dir w.activeDir = some d) (hbare : Bare d)
    (hF : strict = true → ∀ f, F f → f = .ok) (hfailed : w.failed = false) (hlsn : w.nextLsn = 0) :
    Ends F (w.createFirst []) disk (Replayed crc F strict firm w.activeDir [] 0 w.segmentBytes)
      (fun disk' => F .kill ∧ AtRest crc strict firm disk' w.activeDir [] 0) := by
  have hrest : AtRest crc strict firm disk w.activeDir [] 0 :=
    ⟨hpoints, htidy, d, hdir, .bare hbare⟩
  refine (mkdirActive_ends hdir).seq (fun disk' hk => ⟨hk.2, hk.1 ▸ hrest⟩) (fun r disk' hr => ?_)
  rcases hr with ⟨rfl, rfl | ⟨rfl, hfail⟩⟩
  swap
  · exact .pure (.inr ⟨rfl, hfail, hrest⟩)
  rw [if_neg (by decide)]
  refine (create_ends hdir (hbare _ (isSegment_segmentName 0) _ List.mem_cons_self)).seq
    (fun disk' hk => ⟨hk.2, hk.1 ▸ hrest⟩) (fun r disk₁ hr => ?_)
  rcases hr with ⟨rfl, rfl⟩ | ⟨rfl, rfl, hfail⟩
  swap
  · exact .pure (.inr ⟨rfl, hfail, hrest⟩)
  rw [if_pos rfl]
  have hfirst : Lays crc false (d.put (segmentName 0) (some {})) [] [] {} [] := Lays.first hbare
  have hdir₁ :
      (disk'.modify w.activeDir (fun d => d.put (segmentName 0) (some {}))).dir w.activeDir =
      some (d.put (segmentName 0) (some {})) := by
    rw [Volume.dir_modify, if_pos rfl, hdir]
    rfl
  have hpoints₁ := hpoints.modify (q := w.activeDir) (entry_put_kCurrent 0 (some {}))
  have htidy₁ : Tidy (disk'.modify w.activeDir (fun d => d.put (segmentName 0) (some {}))) :=
    htidy.modify
  have hrest₁ : strict = false → AtRest crc strict firm (disk'.modify w.activeDir
      (fun d => d.put (segmentName 0) (some {}))) w.activeDir [] 0 := by
    rintro rfl
    exact ⟨hpoints₁, htidy₁, _, hdir₁,
      .lays hfirst 0 (Nat.zero_le _) (Nat.zero_le _) (Nat.zero_le _)⟩
  have hloose : ∀ f, F f → f ≠ .ok → strict = false := fun f hf hne =>
    Bool.eq_false_iff.mpr (fun hs => hne (hF hs f hf))
  refine (Ends.of_call _ _).seq (fun disk' hk => ⟨hk.2, hk.1 ▸ hrest₁ (hloose _ hk.2 (by decide))⟩)
    (fun ok disk₂ hok => ?_)
  simp only [hdir₁, Option.isSome_some, if_true] at hok
  rcases hok with ⟨rfl, rfl⟩ | ⟨rfl, rfl, hfail⟩
  · refine .pure (.inl ⟨rfl, rfl, rfl, rfl, [], [], {}, 0, ?_, rfl, le_refl _⟩)
    exact
      { points := hpoints₁.synced _
        tidy := htidy₁.synced _
        dir := ⟨_, by rw [Volume.dir_synced, if_pos rfl, hdir₁]; rfl, hfirst.settle.of_strict⟩
        fd := rfl
        failed := hfailed
        size := rfl
        lsn := hlsn
        le := le_refl _
        safe := le_refl _ }
  · exact .pure (.inr ⟨rfl, hfail, hrest₁ (hloose _ hfail (by decide))⟩)

/-- The segments among the names of the active directory are those of its files. -/
theorem segmentsOf_list (htidy : Tidy disk) (hdir : disk.dir place = some d) :
    ∃ extra, disk.list place = some (d.names ++ extra) ∧ ∀ n ∈ extra, isSegment n = false := by
  cases place with
  | none =>
    cases hdir
    refine ⟨disk.dirs.names, rfl, fun n hn => ?_⟩
    by_contra hseg
    rw [Folder.mem_names, Folder.get_eq,
      htidy n (by simpa using hseg) _ List.mem_cons_self] at hn
    cases hn
  | some g =>
    refine ⟨[], ?_, by simp⟩
    change (disk.dirs.get g).map Folder.names = _
    rw [show disk.dirs.get g = some d from hdir, List.append_nil]
    rfl

/-- A directory without segments has none among its names. -/
theorem Bare.segments (h : Bare d) {extra : List Name} (hextra : ∀ n ∈ extra, isSegment n = false) :
    segmentsOf (d.names ++ extra) = [] := by
  have hnil : (d.names ++ extra).filter isSegment = [] := by
    rw [List.filter_eq_nil_iff]
    intro n hn hseg
    rcases List.mem_append.mp hn with hn | hn
    · rw [Folder.mem_names, Folder.get_eq, h n hseg _ List.mem_cons_self] at hn
      cases hn
    · rw [hextra n hn] at hseg
      cases hseg
  rw [segmentsOf, hnil]
  rfl

theorem openIn_ends (h : AtRest crc strict firm disk w.activeDir L durable)
    (hF : strict = true → ∀ f, F f → f = .ok) (hfd : w.fd = none) (hfailed : w.failed = false) :
    Ends F (w.openIn crc) disk (Replayed crc F strict firm w.activeDir L durable w.segmentBytes)
      (fun disk' => F .kill ∧ AtRest crc strict firm disk' w.activeDir L durable) := by
  rcases h.rests with ⟨d, hdir, hrests⟩
  rcases segmentsOf_list h.tidy hdir with ⟨extra, hlist, hextra⟩
  refine (Ends.of_call _ _).seq (fun disk' hk => ⟨hk.2, hk.1 ▸ h⟩) (fun o disk' ho => ?_)
  rcases ho with ⟨rfl, rfl⟩ | ⟨rfl, rfl, hfail⟩
  swap
  · exact .pure (.inr ⟨rfl, hfail, h⟩)
  rw [hlist]
  cases hrests with
  | bare hbare =>
    simp only [hbare.segments hextra]
    refine Ends.bind (Q := fun r disk₁ => r = ⟨true, { w with nextLsn := 0 }, []⟩ ∧ disk₁ = disk')
      (.pure ⟨rfl, rfl⟩) (fun r disk₁ hr => ?_)
    rcases hr with ⟨rfl, rfl⟩
    rw [if_pos ⟨rfl, hfd⟩]
    exact createFirst_ends (w := { w with nextLsn := 0 }) h.points h.tidy hdir hbare hF hfailed rfl
  | lays hlays m hm hsafe hd =>
    simp only [hlays.segments hextra]
    refine (replayFrom_ends (w := { w with nextLsn := 0 }) h.tidy [] hm hsafe hlays hd h.points hdir
      hfailed rfl).bind (fun r disk₁ hr => ?_)
    -- A replayed segment was opened, so none is created.
    refine .ite (fun hnone => ?_) (fun _ => .pure hr)
    rcases hr with ⟨_, _, _, _, _, _, _, _, hrun, _⟩ | ⟨hok, _⟩
    · rw [hrun.fd] at hnone
      cases hnone.2
    · rw [hok] at hnone
      cases hnone.1

/-- Opening a log replays what the disk holds. A pointer that cannot be opened counts as missing,
    so opening it must not fail where there is one. -/
theorem openLog_ends (h : AtRest crc strict firm disk place L durable)
    (hF : strict = true → ∀ f, F f → f = .ok) (hread : F .fail → place = none) (hfd : w.fd = none) :
    Ends F (w.openLog crc) disk (Replayed crc F strict firm place L durable w.segmentBytes)
      (fun disk' => F .kill ∧ AtRest crc strict firm disk' place L durable) := by
  refine (Ends.of_call _ _).seq (fun disk' hk => ⟨hk.2, hk.1 ▸ h⟩) (fun ok disk' hok => ?_)
  rcases hok with ⟨rfl, rfl⟩ | ⟨rfl, rfl, hfail⟩
  swap
  · exact .pure (.inr ⟨rfl, hfail, h⟩)
  rw [if_pos rfl]
  refine (Ends.of_call _ _).seq (fun disk' hk => ⟨hk.2, hk.1 ▸ h⟩) (fun there disk₁ ho => ?_)
  simp only [Volume.dir_none, Bool.not_false, Bool.false_eq_true, if_false] at ho
  have hpoints := h.points
  cases place with
  | none =>
    obtain ⟨rfl, rfl⟩ : there = false ∧ disk₁ = disk' := by
      rw [hpoints.1] at ho
      rcases ho with ⟨rfl, rfl⟩ | ⟨rfl, rfl, _⟩ <;> exact ⟨rfl, rfl⟩
    exact openIn_ends (w := { w with failed := false, activeDir := none, generation := 0 }) h hF
      hfd rfl
  | some g =>
    rcases hpoints with ⟨⟨n, f, rfl, hget, hloose, hparse⟩, _⟩
    rw [hget] at ho
    rcases ho with ⟨rfl, rfl⟩ | ⟨_, _, hfail⟩
    swap
    · exact absurd (hread hfail) (by simp)
    refine (Ends.of_call _ _).seq (fun disk' hk => ⟨hk.2, hk.1 ▸ h⟩) (fun o disk₁ ho => ?_)
    simp only [Volume.dir_none, Option.bind_some, hget] at ho
    rcases ho with ⟨rfl, rfl⟩ | ⟨_, _, hfail⟩
    swap
    · exact absurd (hread hfail) (by simp)
    simp only [Option.map_some, File.data, hloose, List.append_nil, Option.bind_some, hparse]
    exact openIn_ends (w := { w with
      failed := false, activeDir := some (genName n), generation := n }) h hF hfd rfl

/-- An open in which no call fails succeeds and replays it all. -/
theorem openLog_run (h : AtRest crc strict firm disk place L durable) (segmentBytes : Nat) :
    ∃ w disk' fs, Wal.openLog crc { segmentBytes } disk [] = (some ⟨true, w, L⟩, disk', fs) ∧
      Live crc strict firm disk' w L durable := by
  have hends := openLog_ends (F := fun _ => False) (w := { segmentBytes }) h
    (fun _ _ hf => hf.elim) (fun hf => hf.elim) rfl
  generalize hrun : Wal.openLog crc { segmentBytes } disk [] = out
  rcases out with ⟨o, disk', fs⟩
  rcases hends [] (by simp) o disk' fs hrun with ⟨_, hpost⟩
  cases o with
  | none => exact hpost.1.elim
  | some r =>
    rcases r with ⟨ok, w, bodies⟩
    rcases hpost with ⟨hok, hbodies, _, _, hlive⟩ | ⟨_, hfail, _⟩
    · cases hok
      cases hbodies
      exact ⟨w, disk', fs, rfl, hlive⟩
    · exact hfail.elim

end Open

/-! ### Crashes -/

theorem Points.crash (h : Points true disk place) (l : Loss) :
    Points true (disk.crash l) place := by
  have hfiles : (disk.files.entry kCurrent).past = [] → (disk.crash l).files.entry kCurrent =
      ⟨(disk.files.get kCurrent).map (File.lose (l.bytes [kCurrent])), []⟩ := by
    intro hpast
    have hentry : disk.files.entry kCurrent = ⟨disk.files.get kCurrent, []⟩ := by
      rw [← hpast, Folder.get_eq]
    change (disk.files.crash l []).entry kCurrent = _
    rw [Folder.entry_crash, hentry, Entry.pick_settled]
    rfl
  cases place with
  | none =>
    rw [Points, Folder.get_eq, hfiles (h.2 rfl), h.1]
    exact ⟨rfl, fun _ => rfl⟩
  | some g =>
    rcases h with ⟨⟨n, f, hg, hget, hloose, hparse⟩, hpast⟩
    rw [Points, Folder.get_eq, hfiles (hpast rfl).1, hget, Volume.entry_dirs_crash]
    refine ⟨⟨n, f, hg, ?_, hloose, hparse⟩, fun _ => ⟨rfl, rfl⟩⟩
    cases f
    cases hloose
    simp [File.lose]

theorem Tidy.crash (h : Tidy disk) (l : Loss) : Tidy (disk.crash l) := by
  intro n hn v hv
  rw [Volume.entry_dirs_crash] at hv
  rw [List.mem_singleton.mp hv, h n hn _ (Entry.pick_mem _ _)]
  rfl

/-- A crash leaves a prefix of the bodies, with the durable ones. -/
theorem AtRest.crash (h : AtRest crc strict true disk place L durable) (l : Loss)
    (hkeep : strict = false → ∀ d, disk.dir place = some d → KeepsSynced l place.toList d) :
    ∃ k, durable ≤ k ∧ k ≤ L.length ∧ AtRest crc strict true (disk.crash l) place (L.take k) k := by
  rcases h.rests with ⟨d, hdir, hrests⟩
  rcases hrests.crash (fun hs => hkeep hs d hdir) with ⟨k, hk, hkL, hrest⟩
  refine ⟨k, hk, hkL, h.points.crash l, h.tidy.crash l, _, disk.dir_crash l hdir (fun n hn => ?_),
    hrest⟩
  cases hn
  exact (h.points.2 rfl).2

end Tautq
