import Tautq.Core.Copy
import Tautq.Lib.Filing

/-!
# What a Snapshot Replays To

A compaction writes one full copy per job, sorted. Replaying them gives back
every copy, in whatever order they stand, because each id occurs once. It also
gives back the idempotency index, where every key the index has belongs to the
job it names.

## Theorems

* `replay_congr`: Logs with the same copies keep them under the same records.
* `Table.find_snapshot`: A snapshot has the copies of the table.
* `Table.byIdem_snapshot`: And its index.
-/

namespace Tautq

/-- Logs that replay to the same copies still do so after the same records. -/
theorem replay_congr {log log' : List Record}
    (h : ∀ id, (replay log).find id = (replay log').find id)
    (rs : List Record) (id : JobId) :
    (replay (log ++ rs)).find id = (replay (log' ++ rs)).find id := by
  induction rs using List.reverseRecOn generalizing id with
  | nil => simpa using h id
  | append_singleton rs r ih =>
    rw [← List.append_assoc, ← List.append_assoc, replay_snoc, replay_snoc]
    exact Table.find_apply_congr r ih id

/-- Logs that replay to the same index still do so after the same records. -/
theorem replay_byIdem_congr {log log' : List Record}
    (h : ∀ key, (replay log).byIdem.lookup key = (replay log').byIdem.lookup key)
    (rs : List Record) (key : Bytes) :
    (replay (log ++ rs)).byIdem.lookup key = (replay (log' ++ rs)).byIdem.lookup key := by
  induction rs using List.reverseRecOn generalizing key with
  | nil => simpa using h key
  | append_singleton rs r ih =>
    rw [← List.append_assoc, ← List.append_assoc, replay_snoc, replay_snoc]
    exact Table.byIdem_apply_congr r ih key

namespace Table

/-- Full copies put into a table, as a filing system. -/
def filing : Filing Table JobId Bytes Job where
  find := Table.find
  index := fun t key => t.byIdem.lookup key
  put := fun t j => t.apply (.replicate j)
  id := Job.id
  key := Job.idemKey
  find_other := fun t j id hid => by
    rw [find_apply, if_neg (show (Record.replicate j).jobId ≠ id from hid)]
  find_new := fun t j hnone => by
    rw [find_apply, if_pos (show (Record.replicate j).jobId = j.id from rfl), hnone]
    rfl
  index_put := fun t j key => byIdem_apply t (.replicate j) key

theorem replay_copies (l : List Job) : replay (l.map .replicate) = l.foldl filing.put {} := by
  rw [replay, List.foldl_map]
  rfl

/-- What decides where a copy is written. -/
def rank (t : Table) (j : Job) : Rank :=
  ⟨j.idemKey, t.selected j, j.id.origin, j.id.nonce⟩

theorem selected_iff (t : Table) (j : Job) : t.selected j = true ↔ filing.Selected t j := by
  rw [selected, decide_eq_true_iff]
  exact Iff.rfl

section Snapshot

variable {t : Table} (keyed : ∀ {id j}, t.find id = some j → j.id = id)

include keyed

theorem mem_retained (j : Job) : j ∈ t.retained ↔ t.find j.id = some j := by
  rw [retained, (List.perm_insertionSort _ _).mem_iff, List.mem_map]
  constructor
  · rintro ⟨⟨id, j'⟩, hmem, rfl⟩
    have hfind : t.find id = some j' := AList.mem_lookup_iff.mpr hmem
    rw [keyed hfind]
    exact hfind
  · intro h
    exact ⟨⟨j.id, j⟩, AList.mem_lookup_iff.mp h, rfl⟩

theorem nodup_retained : (t.retained.map Job.id).Nodup := by
  have hperm : (t.retained.map Job.id).Perm t.jobs.keys := by
    refine ((List.perm_insertionSort _ _).map Job.id).trans ?_
    rw [List.map_map, AList.keys, List.keys]
    refine List.Perm.of_eq (List.map_congr_left (fun x hx => ?_))
    exact keyed (AList.mem_lookup_iff.mpr hx)
  exact hperm.nodup_iff.mpr t.jobs.keys_nodup

/-- A snapshot has the copies of the table. -/
theorem find_snapshot (id : JobId) : (replay t.snapshot).find id = t.find id := by
  rw [snapshot, replay_copies]
  exact filing.find_rebuild (nodup_retained keyed) (mem_retained keyed) keyed (fun _ => rfl) id

/-- A snapshot has the index of the table, where every job's key is in the index and every
    key in it is the key of the job it names. -/
theorem byIdem_snapshot
    (indexed : ∀ id j, t.find id = some j → ∃ id', t.byIdem.lookup j.idemKey = some id')
    (named : ∀ key id, t.byIdem.lookup key = some id → ∃ j, t.find id = some j ∧ j.idemKey = key)
    (key : Bytes) : (replay t.snapshot).byIdem.lookup key = t.byIdem.lookup key := by
  rw [snapshot, replay_copies]
  refine filing.index_rebuild (nodup_retained keyed) (mem_retained keyed)
    ⟨keyed, fun h => indexed _ _ h, fun h => named _ _ h⟩ (fun _ => rfl) ?_ key
  -- The copies are sorted by rank, so the one the index names is the last with its key.
  refine (Rank.pairwise_sort t.rank _).imp (fun {a b} hle hkey hsel => ?_)
  rw [← selected_iff] at hsel ⊢
  exact Rank.selected_of_before hle hkey hsel

end Snapshot

end Table

end Tautq
