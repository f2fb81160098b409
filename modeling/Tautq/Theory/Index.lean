import Tautq.Theory.Birth

/-!
# The Idempotency Index

A compaction keeps the copies of a table whatever they are. It keeps the index
because all copies of a job have one key: a snapshot writes, for each key, the
job the index names last, and that job has the key. So a node finds the same
job for a key after any number of compactions and restarts.

## Main definitions

* `Indexed`: A table, its file and its history have one index.

## Theorems

* `indexes`: Every store is indexed, in every reachable state.
* `Indexed.findByIdem`: A log that works names the jobs the table names.
-/

namespace Tautq

open Status Cluster

/-- The table and the file have the index of everything ever acknowledged. -/
structure Indexed (s : Store) : Prop where
  table : ∀ key, s.table.byIdem.lookup key = (replay s.wal).byIdem.lookup key
  file : ∀ key, (replay s.file).byIdem.lookup key = (replay s.wal).byIdem.lookup key

namespace Indexed

variable {s : Store}

theorem append (h : Indexed s) (r : Record) : Indexed (s.append r) where
  table key := by
    rw [Store.append, replay_snoc]
    exact Table.byIdem_apply_congr r h.table key
  file key := by
    rw [Store.append, replay_snoc, replay_snoc]
    exact Table.byIdem_apply_congr r h.file key

theorem fail (h : Indexed s) (limbo : Option Record) : Indexed (s.fail limbo) :=
  ⟨h.table, h.file⟩

theorem reopen (h : Indexed s) : Indexed s.reopen :=
  ⟨replay_byIdem_congr h.file s.limbo.toList, replay_byIdem_congr h.file s.limbo.toList⟩

theorem install (h : Indexed s)
    (named : ∀ key id, s.table.byIdem.lookup key = some id → ∃ j, s.table.find id = some j ∧
    j.idemKey = key) : Indexed s.install where
  table := h.table
  file key := by
    refine (Table.byIdem_snapshot s.find_id (fun id j hj => ?_) named key).trans (h.table key)
    -- The copy goes back to a full one in the log, and that one was indexed.
    rw [s.replayed] at hj
    rcases replay_origin hj with ⟨r, hr, j', hfull, hsame⟩
    rcases replay_indexed hr hfull with ⟨l, hl⟩
    rcases Option.bind_eq_some_iff.mp hl with ⟨id', hid', _⟩
    exact ⟨id', by rw [h.table, hsame.idemKey]; exact hid'⟩

theorem compact (h : Indexed s)
    (named : ∀ key id, s.table.byIdem.lookup key = some id → ∃ j, s.table.find id = some j ∧
    j.idemKey = key) (d : Disk) : Indexed (s.compact d) := by
  unfold Store.compact
  split
  · exact h
  · cases d with
    | durable => exact h.install named
    | lost => exact h.fail none
    | kept => exact (h.install named).fail none

/-- A log that works names the jobs the table names. -/
theorem findByIdem (h : Indexed s) (open_ : s.failed = false) (key : Bytes) :
    (replay s.log).findByIdem key = s.table.findByIdem key := by
  have hlog :
      s.log = s.wal := by rw [Store.log, s.settled open_, Option.toList_none, List.append_nil]
  rw [Table.findByIdem, Table.findByIdem, h.table, hlog]
  exact congrArg _ (funext (fun id => (s.replayed id).symm))

end Indexed

/-- The index names jobs with the key it names them for. -/
theorem Sane.named {w : World} {e : Endpoint} (h : Sane w) (hi : Indexed (w e).store) {key : Bytes}
    {id : JobId} (hid : (w e).store.table.byIdem.lookup key = some id) :
    ∃ j, (w e).store.table.find id = some j ∧ j.idemKey = key := by
  rw [hi.table] at hid
  rcases replay_index_origin hid with ⟨r, hr, j', hfull, hkey, hid'⟩
  rcases replay_indexed hr hfull with ⟨j, hj⟩
  rcases Option.bind_eq_some_iff.mp hj with ⟨id₁, hid₁, hfind⟩
  rw [hkey, hid, Option.some.injEq] at hid₁
  subst hid₁
  refine ⟨j, by rw [(w e).store.replayed]; exact hfind, ?_⟩
  have hborn := ((h.copies e).full r ((w e).store.wal_prefix_log.subset hr) j' hfull).1
  have hheld : Held (w e).store.log id j := (held_last hfind).mono (w e).store.wal_prefix_log
  have hsame := (h.held hheld).1.same_of h.names h.mints hborn (hheld.job_id.trans hid'.symm)
  exact hsame.idemKey.trans hkey

theorem indexes {K : Cond} {d : Deployment} : Always K d (fun w => ∀ e, Indexed (w e).store) := by
  refine always_of_node (Q := fun _ n => Indexed n.store) (fun _ h => h)
    (fun e => ⟨fun _ => rfl, fun _ => rfl⟩) (fun {c e t m m'} hin _ hm _ hmove => ?_)
  have hs := hmove.store_step
  generalize m'.store = s at hs
  cases hs with
  | same => exact hm
  | append r => exact hm.append r
  | fail r limbo => exact hm.fail limbo
  | compact dk =>
    refine hm.compact (fun key id hid => ?_) dk
    have hself : Indexed (Function.update c.node e m e).store := by
      rw [Function.update_self]
      exact hm
    have hnamed := (sane.inside hin).named hself (by rw [Function.update_self]; exact hid)
    rwa [Function.update_self] at hnamed
  | reopen => exact hm.reopen

end Tautq
