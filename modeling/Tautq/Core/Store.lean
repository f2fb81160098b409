import Tautq.Core.Snapshot

/-!
# The Job Store

The table with the log behind it, appended to before it is applied.

`commit` is the only write path of a running node: append, then apply. An
append can fail; the log then refuses every later append until the store is
opened again. A failed write leaves a torn tail, which the next open cuts off,
but a failed data sync leaves the whole frame in the file: the record was not
applied, and yet the next open may replay it.

A compaction replaces the file by one full copy per job. Which records there
ever were is history then, and arguments about a job need it, so the store
keeps both: `wal` is every record acknowledged since the store was first
opened, `file` is what is on the disk of them. The two replay to the same
copies.

## Main definitions

* `Disk`: What the disk does with one append.
* `Store`, `Store.commit`: The table with the log behind it, and the one write
  path.
* `Store.compact`: Replace the file by a snapshot.
* `Store.reopen`: Rebuild the table from the file.
* `Store.log`: Every record acknowledged or left in the file.
-/

namespace Tautq

/-- The running table, every record acknowledged so far, what is in the file of
    them, a record whose append was reported as failed but is in the file, and
    whether an append has failed since the store was opened. -/
structure Store where
  table : Table := {}
  wal : List Record := []
  file : List Record := []
  limbo : Option Record := none
  failed : Bool := false
  /-- The table has the copies the acknowledged records replay to. -/
  replayed : ∀ id, table.find id = (replay wal).find id := by exact fun _ => rfl
  /-- So has the table the file replays to. -/
  filed : ∀ id, (replay file).find id = (replay wal).find id := by exact fun _ => rfl
  /-- Only a failed append leaves a record in doubt. -/
  settled : failed = false → limbo = none := by simp

instance : Inhabited Store := ⟨{}⟩

/-- What the disk does with one append: make it durable, lose it, or report a
    failure and have it in the file at the next open all the same. -/
inductive Disk where
  | durable | lost | kept
deriving DecidableEq, Repr, Inhabited

namespace Store

@[simp]
theorem default_wal : (default : Store).wal = [] := rfl

@[simp]
theorem default_table : (default : Store).table = {} := rfl

@[simp]
theorem default_limbo : (default : Store).limbo = none := rfl

/-- A store files every copy under the copy's own id. -/
theorem find_id (s : Store) {id : JobId} {j : Job} (h : s.table.find id = some j) : j.id = id :=
  replay_find_id s.wal id j ((s.replayed id).symm.trans h)

/-- Everything that was acknowledged or is in the file all the same. -/
def log (s : Store) : List Record :=
  s.wal ++ s.limbo.toList

/-- Append a record that reached the disk, then apply it. -/
def append (s : Store) (r : Record) : Store where
  table := s.table.apply r
  wal := s.wal ++ [r]
  file := s.file ++ [r]
  limbo := s.limbo
  failed := s.failed
  replayed := by
    rw [replay_snoc]
    exact Table.find_apply_congr r s.replayed
  filed := by
    rw [replay_snoc, replay_snoc]
    exact Table.find_apply_congr r s.filed
  settled := s.settled

/-- Stop the log after a failed append. -/
def fail (s : Store) (limbo : Option Record) : Store where
  table := s.table
  wal := s.wal
  file := s.file
  limbo := limbo
  failed := true
  replayed := s.replayed
  filed := s.filed

/-- Append, then apply; a failed append stops the log and applies nothing. -/
def commit (s : Store) (r : Record) (d : Disk) : Store × Bool :=
  if s.failed then (s, false)
  else
    match d with
    | .durable => (s.append r, true)
    | .lost => (s.fail none, false)
    | .kept => (s.fail (some r), false)

/-- Make a snapshot of the table the file. -/
def install (s : Store) : Store where
  table := s.table
  wal := s.wal
  file := s.table.snapshot
  limbo := s.limbo
  failed := s.failed
  replayed := s.replayed
  filed := fun id => (Table.find_snapshot s.find_id id).trans (s.replayed id)
  settled := s.settled

/-- Replace the file by a snapshot. A stopped log is not compacted. The new
    generation is complete before the pointer names it; when the pointer itself is
    not known to be durable the log stops, and the next open finds the old
    generation or the new one. -/
def compact (s : Store) (d : Disk) : Store :=
  if s.failed then s
  else
    match d with
    | .durable => s.install
    | .lost => s.fail none
    | .kept => s.install.fail none

/-- Rebuild the table from the file. -/
def reopen (s : Store) : Store where
  table := replay (s.file ++ s.limbo.toList)
  wal := s.log
  file := s.file ++ s.limbo.toList
  replayed := replay_congr s.filed s.limbo.toList
  filed := replay_congr s.filed s.limbo.toList

end Store

end Tautq
