import Tautq.Core.Codec
import Tautq.Lib.Digits
import Tautq.Lib.Volume

/-!
# The Write-Ahead Log

The log on disk: segments of checksummed frames, named by the sequence number of
their first record and sorted as strings. The active segments are in the data
directory itself, or in the generation the file `CURRENT` names.

Opening replays every segment. A short or corrupt frame in the last one is a torn
tail and is cut away; anywhere else it is damage, and opening fails. A failed write
or sync stops the log until it is opened again. A compaction writes a new generation,
syncs it, and renames a pointer over `CURRENT`; from the rename on the log is stopped
until the data directory is synced.

Every system call has a fate, so a function here covers every way its calls can fail
and every point it can be killed at. Closing a file has none. The checksum is a
parameter.

## Main definitions

* `frame`, `scanFrames`: Frames and the scan over a file.
* `segmentName`, `genName`, `isSegment`: File names.
* `Wal`: The log object.
* `Wal.openLog`, `Wal.append`, `Wal.sync`, `Wal.rotate`, `Wal.compact`: Its operations.
-/

namespace Tautq

/-! ### Frames -/

def kFrameHeader : Nat := 8

def kMaxBody : Nat := 64 * 1024

section Crc

variable (crc : Bytes → UInt32)

/-- A length, a checksum and the body. -/
def frame (body : Bytes) : Bytes :=
  putU32 (UInt32.ofNat body.length) ++ putU32 (crc body) ++ body

/-- The bodies from an offset on, and the offset of the first frame that is not whole. -/
def scanFrom (data : Bytes) : Nat → Nat → List Bytes × Nat
  | 0, off => ([], off)
  | fuel + 1, off =>
    if data.length < off + kFrameHeader then ([], off)
    else
      let len := (getU32 data off).toNat
      if len = 0 ∨ kMaxBody < len ∨ data.length < off + kFrameHeader + len then ([], off)
      else
        let body := (data.drop (off + kFrameHeader)).take len
        if crc body ≠ getU32 data (off + 4) then ([], off)
        else
          let rest := scanFrom data fuel (off + kFrameHeader + len)
          (body :: rest.1, rest.2)

/-- The bodies in a file, and how much of it they take up. -/
def scanFrames (data : Bytes) : List Bytes × Nat :=
  scanFrom crc data (data.length + 1) 0

end Crc

/-! ### Names -/

/-- Text as bytes. -/
def text (s : List Char) : Bytes :=
  s.map (fun c => UInt8.ofNat c.toNat)

def segmentName (startLsn : Nat) : Name :=
  text ['w', 'a', 'l', '-'] ++ pad 20 startLsn ++ text ['.', 'l', 'o', 'g']

def genPrefix : Name :=
  text ['w', 'a', 'l', '-', 'g', 'e', 'n', '-']

def genName (generation : Nat) : Name :=
  genPrefix ++ pad 20 generation

def kCurrent : Name :=
  text ['C', 'U', 'R', 'R', 'E', 'N', 'T']

def kCurrentTmp : Name :=
  text ['C', 'U', 'R', 'R', 'E', 'N', 'T', '.', 't', 'm', 'p']

/-- Whether a name is taken for a segment. -/
def isSegment (n : Name) : Bool :=
  n.take 4 = text ['w', 'a', 'l', '-'] && 8 < n.length &&
    n.drop (n.length - 4) = text ['.', 'l', 'o', 'g']

/-- The segments among the names of a directory, sorted. -/
def segmentsOf (names : List Name) : List Name :=
  (names.filter isSegment).insertionSort (· ≤ ·)

/-! ### The log -/

/-- The log object. The active directory is the data directory itself or a generation
    in it. -/
structure Wal where
  activeDir : Option Name := none
  generation : Nat := 0
  /-- The open segment, and the directory it is in. -/
  fd : Option (Option Name × Name) := none
  failed : Bool := false
  activeSize : Nat := 0
  segmentBytes : Nat := 64 * 2 ^ 20
  nextLsn : Nat := 0
deriving DecidableEq, Repr, Inhabited

/-- What opening a log gives: whether it succeeded, and the bodies it replayed. -/
structure Opened where
  ok : Bool
  wal : Wal
  bodies : List Bytes

namespace Wal

variable (crc : Bytes → UInt32)

def openActive (w : Wal) (n : Name) (create : Bool) : Proc Volume (Bool × Wal) := do
  let ok ← openFile w.activeDir n create false
  if ok then pure (true, { w with fd := some (w.activeDir, n) })
  else pure (false, { w with fd := none })

/-- Open the last segment, of which `clean` bytes are frames. -/
def openLast (w : Wal) (n : Name) (clean : Nat) (bodies : List Bytes) : Proc Volume Opened := do
  let r ← w.openActive n false
  if r.1 then pure ⟨true, { r.2 with activeSize := clean }, bodies⟩
  else pure ⟨false, r.2, bodies⟩

/-- Replay segments in order, after `bodies`. -/
def replayFrom (w : Wal) (bodies : List Bytes) : List Name → Proc Volume Opened
  | [] => pure ⟨true, w, bodies⟩
  | n :: rest => do
      match ← readFile w.activeDir n with
      | none => pure ⟨false, w, bodies⟩
      | some data =>
        let found := scanFrames crc data
        let w' := { w with nextLsn := (w.nextLsn + found.1.length) % 2 ^ 64 }
        if rest ≠ [] then
          -- Corruption before the tail is not repaired here.
          if found.2 ≠ data.length then pure ⟨false, w', bodies ++ found.1⟩
          else w'.replayFrom (bodies ++ found.1) rest
        else if found.2 ≠ data.length then do
          if ← truncate w'.activeDir n found.2 then w'.openLast n found.2 (bodies ++ found.1)
          else pure ⟨false, w', bodies ++ found.1⟩
        else w'.openLast n found.2 (bodies ++ found.1)

/-- The data directory itself was made before. -/
def mkdirActive (w : Wal) : Proc Volume Made :=
  match w.activeDir with
  | none => pure .taken
  | some g => mkdir g

/-- A directory without segments gets its first one. -/
def createFirst (w : Wal) (bodies : List Bytes) : Proc Volume Opened := do
  if (← w.mkdirActive) = .failed then pure ⟨false, w, bodies⟩
  else do
    let r ← w.openActive (segmentName 0) true
    if r.1 then do
      if ← syncDir w.activeDir then pure ⟨true, { r.2 with activeSize := 0 }, bodies⟩
      else pure ⟨false, { r.2 with activeSize := 0, failed := true }, bodies⟩
    else pure ⟨false, r.2, bodies⟩

/-- Replay the active directory. -/
def openIn (w : Wal) : Proc Volume Opened := do
  match ← listDir w.activeDir with
  | none => pure ⟨false, w, []⟩
  | some names => do
      let r ← ({ w with nextLsn := 0 } : Wal).replayFrom crc [] (segmentsOf names)
      if r.ok ∧ r.wal.fd = none then r.wal.createFirst r.bodies else pure r

/-- Creating the data directory, which is there in every state. -/
def mkdirData : Proc Volume Bool :=
  Proc.call (fun disk => (true, disk)) false

/-- `Wal::open`. A pointer that cannot be opened counts as missing. -/
def openLog (w : Wal) : Proc Volume Opened := do
  let w' := { w with failed := false, activeDir := none, generation := 0 }
  if ← mkdirData then
    if ← openFile none kCurrent false false then
      match (← readFile none kCurrent).bind parseU64 with
      | none => pure ⟨false, w', []⟩
      | some g => ({ w' with generation := g, activeDir := some (genName g) } : Wal).openIn crc
    else w'.openIn crc
  else pure ⟨false, w', []⟩

/-- Sync the open segment. -/
def sync (w : Wal) : Proc Volume (Bool × Wal) :=
  match w.fd with
  | none => pure (false, w)
  | some (p, n) =>
    if w.failed then pure (false, w)
    else do
      if ← dataSync p n then pure (true, w) else pure (false, { w with failed := true })

/-- Close the segment and start the next one. -/
def rotate (w : Wal) : Proc Volume (Bool × Wal) := do
  let r ← w.sync
  if r.1 then do
    let r' ← r.2.openActive (segmentName r.2.nextLsn) true
    if r'.1 then do
      if ← syncDir r'.2.activeDir then pure (true, { r'.2 with activeSize := 0 })
      else pure (false, { r'.2 with activeSize := 0, failed := true })
    else pure (false, { r'.2 with failed := true })
  else pure r

/-- Write a frame to a segment. -/
def putAt (w : Wal) (p : Option Name) (n : Name) (body : Bytes) (doSync : Bool) :
    Proc Volume (Bool × Wal) := do
  if ← writeAll p n (frame crc body) then
    let w' := { w with activeSize := w.activeSize + (kFrameHeader + body.length),
                       nextLsn := (w.nextLsn + 1) % 2 ^ 64 }
    if doSync then w'.sync else pure (true, w')
  else pure (false, { w with failed := true })

/-- Write a frame to the open segment. -/
def put (w : Wal) (body : Bytes) (doSync : Bool) : Proc Volume (Bool × Wal) :=
  match w.fd with
  | none => pure (false, w)
  | some (p, n) => w.putAt crc p n body doSync

def append (w : Wal) (body : Bytes) (doSync : Bool) : Proc Volume (Bool × Wal) :=
  if w.fd = none ∨ w.failed ∨ body = [] ∨ kMaxBody < body.length then pure (false, w)
  else if 0 < w.activeSize ∧ w.segmentBytes < w.activeSize + (kFrameHeader + body.length) then do
    let r ← w.rotate
    if r.1 then r.2.put crc body doSync else pure r
  else w.put crc body doSync

/-! ### Compaction -/

/-- Make the directory of the next generation, past those an interrupted attempt left.
    The first number is how many generations there can still be. -/
def nextGeneration : Nat → Nat → Proc Volume (Option Nat)
  | 0, _ => pure none
  | left + 1, g => do
      match ← mkdir (genName g) with
      | .made => pure (some g)
      | .taken => nextGeneration left (g + 1)
      | .failed => pure none

/-- The segment of a snapshot that is being written: its name, its size, and how many
    records were written. -/
structure Out where
  name : Name
  size : Nat
  lsn : Nat

/-- Open the next segment of a snapshot. -/
def openSegment (dir : Name) (start : Nat) : Proc Volume Bool :=
  openFile (some dir) (segmentName start) true true

/-- Write the bodies of a snapshot; what is returned is the segment left open, if any, and
    whether all went well. -/
def writeSnapshot (segmentBytes : Nat) (dir : Name) (out : Out) :
    List Bytes → Proc Volume (Option Out × Bool)
  | [] => pure (some out, true)
  | body :: rest => do
      let frameSize := kFrameHeader + body.length
      if 0 < out.size ∧ segmentBytes < out.size + frameSize then
        if ← dataSync (some dir) out.name then
          if ← openSegment dir out.lsn then
            if ← writeAll (some dir) (segmentName out.lsn) (frame crc body) then
              writeSnapshot segmentBytes dir ⟨segmentName out.lsn, frameSize,
                (out.lsn + 1) % 2 ^ 64⟩ rest
            else pure (some ⟨segmentName out.lsn, 0, out.lsn⟩, false)
          else pure (none, false)
        else pure (some out, false)
      else if ← writeAll (some dir) out.name (frame crc body) then
        writeSnapshot segmentBytes dir ⟨out.name, out.size + frameSize, (out.lsn + 1) % 2 ^ 64⟩ rest
      else pure (some out, false)

/-- Write a generation and make it durable; what is returned is how many records it has. -/
def writeGeneration (segmentBytes : Nat) (dir : Name) (snapshot : List Bytes) :
    Proc Volume (Option Nat) := do
  if ← openSegment dir 0 then
    match ← writeSnapshot crc segmentBytes dir ⟨segmentName 0, 0, 0⟩ snapshot with
    | (none, _) => pure none
    | (some out, ok) =>
      if ← dataSync (some dir) out.name then
        if ok then
          if ← syncDir (some dir) then
            if ← syncDir none then pure (some out.lsn) else pure none
          else pure none
        else pure none
      else pure none
  else pure none

/-- Write the pointer under its temporary name and make its contents durable. -/
def writePointer (generation : Nat) : Proc Volume Bool := do
  if ← openTrunc kCurrentTmp then
    if ← writeAll none kCurrentTmp (decimal generation ++ [10]) then dataSync none kCurrentTmp
    else pure false
  else pure false

/-- Open the last segment of an installed generation for appending. -/
def switchTo (w : Wal) (dir : Name) (generation lsn : Nat) : Proc Volume (Bool × Wal) := do
  let w' := { w with fd := none, activeDir := some dir, generation }
  match ← listDir (some dir) with
  | none => pure (false, w')
  | some names =>
    let n := (segmentsOf names).getLast?
    let r ← w'.openActive (n.getD (segmentName 0)) (n = none)
    if r.1 then
      -- The size is taken from the file itself.
      match ← readFile (some dir) (n.getD (segmentName 0)) with
      | none => pure (false, r.2)
      | some data =>
        pure (true, { r.2 with activeSize := data.length, nextLsn := lsn, failed := false })
    else pure (false, r.2)

/-- Remove the files of a directory one after the other. -/
def removeFiles (dir : Name) : List Name → Proc Volume Bool
  | [] => pure true
  | n :: rest => do
      if ← unlink (some dir) n then removeFiles dir rest else pure false

/-- Remove a directory and everything in it. -/
def removeAll (dir : Name) : Proc Volume Bool := do
  match ← listDir (some dir) with
  | none => pure false
  | some names => do
      if ← removeFiles dir names then rmdir dir else pure false

/-- Remove every generation but one, and the segments of the data directory itself. -/
def cleanUp (active : Name) : List Name → Proc Volume Bool
  | [] => pure true
  | n :: rest => do
      if n.take 8 = genPrefix ∧ n ≠ active then
        if ← removeAll n then cleanUp active rest else pure false
      else if isSegment n then
        if ← unlink none n then cleanUp active rest else pure false
      else cleanUp active rest

/-- The boundary a compaction reports to its hook, which can ask it to stop. -/
def hook : Proc Volume Bool :=
  Proc.call (fun disk => (true, disk)) false

/-- After the pointer was renamed: make it durable, switch over, and clean up. -/
def install (w : Wal) (generation lsn : Nat) : Proc Volume (Bool × Wal) := do
  -- Until the data directory is synced nothing can be acknowledged.
  let w' := { w with failed := true }
  if ← syncDir none then
    let r ← w'.switchTo (genName generation) generation lsn
    if r.1 then
      if ← hook then
        if ← hook then
          match ← listDir none with
          | none => pure (false, r.2)
          | some names =>
            if ← cleanUp (genName generation) names then
              pure (← syncDir none, r.2)
            else pure (false, r.2)
        else pure (false, { r.2 with failed := true })
      else pure (false, { r.2 with failed := true })
    else pure r
  else pure (false, w')

/-- `Wal::compact`. -/
def compact (w : Wal) (snapshot : List Bytes) : Proc Volume (Bool × Wal) :=
  if w.fd = none ∨ w.failed ∨ (∃ b ∈ snapshot, b = [] ∨ kMaxBody < b.length) then pure (false, w)
  else do
    let r ← w.sync
    if r.1 then
      let first := (r.2.generation + 1) % 2 ^ 64
      match ← nextGeneration (2 ^ 64 - first) first with
      | none => pure (false, r.2)
      | some g =>
        match ← writeGeneration crc r.2.segmentBytes (genName g) snapshot with
        | none => pure (false, r.2)
        | some lsn =>
          if ← hook then
            if ← writePointer g then
              if ← rename kCurrentTmp kCurrent then r.2.install g lsn
              else pure (false, r.2)
            else pure (false, r.2)
          else pure (false, r.2)
    else pure r

end Wal

end Tautq
