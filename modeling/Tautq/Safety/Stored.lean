import Tautq.Theory.Refine

/-!
# The Cluster's Store Is the One on Disk

Nodes of the cluster run on `Store`, whose disk has three answers to an append. A service runs the
job store on a disk of files and directories, where every system call can fail or be the last.
Every run of a service is a run of the cluster's store: an open is a reopen, a commit one with some
answer of the disk, and a compaction one with some answer, or nothing (`disk_refines_store`).

## Main definitions

* `Store.Follows`, `Store.FollowsAll`: What operations on the disk may do to the cluster's store.
* `Service.Holds`: A service and the store it amounts to.

## Theorems

* `Service.Holds.step`: One operation.
* `disk_refines_store`: All runs.
-/

namespace Tautq

open Proc

namespace Store

/-- What an operation on the disk may do to the cluster's store. -/
def Follows (S : Store) : Service.Op → Store → Prop
  | .openStore _, S' => S' = S.reopen
  | .commit r _ _, S' => ∃ R d, r.Reads R ∧ S' = (S.commit R d).1
  | .compact _, S' => S' = S ∨ ∃ d, S' = S.compact d
  | .kill, S' => S' = S

def FollowsAll (S : Store) : List Service.Op → Store → Prop
  | [], S' => S' = S
  | op :: ops, S' => ∃ S₁, S.Follows op S₁ ∧ S₁.FollowsAll ops S'

end Store

namespace Service

/-- A commit is of a record that can be read: the state of a full copy is one. -/
def Op.readable : Op → Prop
  | .commit r _ _ => ∃ R, r.Reads R
  | _ => True

/-- A service and the store it amounts to. -/
def Holds (crc : Bytes → UInt32) (s : Service) (S : Store) : Prop :=
  match s.store with
  | none => LeftBy crc s.disk S
  | some st => Refines crc s.disk st S

variable {crc : Bytes → UInt32} {key : RawId → Bytes} {s s' : Service} {S : Store} {op : Op}

/-- Killed where it is, it leaves the log of that store. -/
theorem Holds.left (h : Holds crc s S) : LeftBy crc s.disk S := by
  unfold Holds at h
  split at h
  · exact h
  · cases h with
    | live L durable hlive hopen htable hlog =>
      exact leftBy_of_file hlive.atRest (S.settled hopen) hlog
    | stopped _ _ _ hleft => exact hleft

theorem Holds.step (h : Holds crc s S) (hkept : Kept crc (RawTable.Sound key) s)
    (hkeyed : op.keyed key) (hread : op.readable) (hstep : Service.step crc s op = some s') :
    ∃ S', S.Follows op S' ∧ Holds crc s' S' := by
  cases op with
  | openStore segmentBytes =>
    rcases openStore_refines h.left segmentBytes with ⟨st, disk, fs, hrun, hrefines⟩
    simp only [Service.step, hrun] at hstep
    split at hstep <;> cases hstep
    exact ⟨_, rfl, hrefines⟩
  | kill =>
    cases hstep
    exact ⟨S, rfl, h.left⟩
  | commit r doSync fates =>
    rcases hread with ⟨R, hR⟩
    simp only [Service.step] at hstep
    split at hstep
    · cases hstep
    · next st hst =>
        rw [Holds, hst] at h
        generalize hrun : st.commit crc r doSync s.disk fates = out at hstep
        have hpost := (commit_refines h hkeyed.1 hR doSync fates (fun _ _ => trivial) _ _ _ hrun).2
        split at hstep <;> cases hstep <;> rcases hpost with ⟨d, hpost⟩
        · exact ⟨_, ⟨R, d, hR, rfl⟩, hpost.2⟩
        · exact ⟨_, ⟨R, d, hR, rfl⟩, hpost.2⟩
        · exact ⟨_, ⟨R, d, hR, rfl⟩, hpost⟩
  | compact fates =>
    simp only [Service.step] at hstep
    split at hstep
    · cases hstep
    · next st hst =>
        rw [Holds, hst] at h
        rw [Kept, hst] at hkept
        rcases hkept with ⟨_, _, _, hsound⟩
        generalize hrun : st.compact crc s.disk fates = out at hstep
        have hpost := (compact_refines h hsound fates (fun _ _ => trivial) _ _ _ hrun).2
        -- The compaction returned, or was cut short.
        split at hstep <;> cases hstep <;> rcases hpost with hsame | ⟨d, hnew⟩
        · exact ⟨S, .inl rfl, hsame⟩
        · exact ⟨_, .inr ⟨d, rfl⟩, hnew⟩
        · exact ⟨S, .inl rfl, hsame⟩
        · exact ⟨_, .inr ⟨d, rfl⟩, hnew⟩

/-- A run that goes on from a state of a run. -/
theorem Holds.exec {pre ops : List Op} (hpre : Run.exec (Service.step crc) {} pre = some s)
    (hops : ∀ op ∈ pre ++ ops, op.keyed key ∧ op.readable) (h : Holds crc s S)
    (hrun : Run.exec (Service.step crc) s ops = some s') :
    ∃ S', S.FollowsAll ops S' ∧ Holds crc s' S' := by
  induction ops generalizing s S pre with
  | nil =>
    cases hrun
    exact ⟨S, rfl, h⟩
  | cons op ops ih =>
    rcases Option.bind_eq_some_iff.mp hrun with ⟨s₁, hstep, hrest⟩
    have hop := hops op (by simp)
    have hkept := kept_of_keyed (fun o ho => (hops o (List.mem_append_left _ ho)).1) hpre
    rcases h.step hkept hop.1 hop.2 hstep with ⟨S₁, hfollows, h₁⟩
    have hpre₁ : Run.exec (Service.step crc) {} (pre ++ [op]) = some s₁ := by
      rw [Run.exec_append {} s pre [op] hpre]
      simp only [Run.exec, hstep, Option.bind_some]
    rcases ih hpre₁ (by simpa using hops) h₁ hrest with ⟨S', hall, h'⟩
    exact ⟨S', ⟨S₁, hfollows, hall⟩, h'⟩

theorem Holds.init : Holds crc {} default := by
  exact (.init .empty : Kept crc (fun t => t.Reads {}) {})

end Service

/-- In every run of a service whose commits are within the limits, readable, and have one key for
    all records of a job, whatever becomes of its system calls: the cluster's store has a run of
    the same operations, such that a running job store has the table of that store and returns for
    the next commit what it returns with some answer of the disk, and a job store that is opened
    on the disk next has the table of that store reopened. -/
theorem disk_refines_store (crc : Bytes → UInt32) (key : RawId → Bytes) (ops : List Service.Op)
    (hops : ∀ op ∈ ops, op.keyed key ∧ op.readable) {s : Service}
    (hrun : Run.exec (Service.step crc) {} ops = some s) :
    ∃ S, (default : Store).FollowsAll ops S ∧
      (∀ st ∈ s.store, st.table.Reads S.table ∧ ∀ r R doSync fates a rest, r.fits → r.Reads R →
        st.commit crc r doSync s.disk fates = (some a, rest) →
          ∃ d, (S.commit R d).2 = a.1 ∧ a.2.table.Reads (S.commit R d).1.table) ∧
      ∀ segmentBytes, ∃ st disk fs,
        JobStore.openStore crc segmentBytes s.disk [] = (some (true, st), disk, fs) ∧
          st.table.Reads S.reopen.table := by
  have hnone : Run.exec (Service.step crc) {} [] = some {} := rfl
  rcases Service.Holds.init.exec hnone hops hrun with ⟨S, hfollows, h⟩
  have htable : ∀ {disk st S}, Refines crc disk st S → st.table.Reads S.table := by
    intro disk st S hrefines
    cases hrefines with
    | live _ _ _ _ htable | stopped _ _ htable => exact htable
  refine ⟨S, hfollows, fun st hst => ?_, fun segmentBytes => ?_⟩
  · rw [Service.Holds, show s.store = some st from hst] at h
    refine ⟨htable h, fun r R doSync fates a rest hr hR hcommit => ?_⟩
    rcases (commit_refines h hr hR doSync fates (fun _ _ => trivial) _ _ _ hcommit).2 with
      ⟨d, hok, hrefines⟩
    exact ⟨d, hok, htable hrefines⟩
  · rcases openStore_refines h.left segmentBytes with ⟨st, disk, fs, hopen, hrefines⟩
    exact ⟨st, disk, fs, hopen, htable hrefines⟩

/-- The sync of a lease record fails: the cluster's store is stopped, with or without the record. -/
theorem disk_refines_store_refused :
    let crc : Bytes → UInt32 := fun b => UInt32.ofNat b.length
    let j : RawJob := { (default : RawJob) with idemKey := [1], state := 1, epoch := 1 }
    let ops : List Service.Op := [.openStore 4096, .commit (.submit j) true [],
      .commit (.lease j.id 1 1 7) true [.ok, .fail]]
    ∃ s st S, Run.exec (Service.step crc) {} ops = some s ∧ s.store = some st ∧
      st.table.find j.id = some j ∧ (default : Store).FollowsAll ops S ∧
      st.table.Reads S.table := by
  intro crc j ops
  have hrun : (Run.exec (Service.step crc) {} ops).any (fun s => s.store.any (fun st =>
      decide (st.table.find j.id = some j))) = true := by decide +kernel
  rcases (Option.any_eq_true _ _).mp hrun with ⟨s, hs, hstore⟩
  rcases (Option.any_eq_true _ _).mp hstore with ⟨st, hst, hshow⟩
  have hj : j.Reads { (default : Job) with idemKey := [1], epoch := 1 } := by constructor <;> rfl
  have hops : ∀ op ∈ ops, op.keyed (fun _ => [1]) ∧ op.readable := by
    simp only [ops, List.forall_mem_cons, Service.Op.keyed, Service.Op.readable]
    refine ⟨⟨trivial, trivial⟩, ⟨⟨by decide, by simp [RawRecord.full, j]⟩, _, .submit hj⟩,
      ⟨⟨trivial, by simp [RawRecord.full]⟩, _, .lease j.id 1 1 7⟩, by simp⟩
  rcases disk_refines_store crc (fun _ => [1]) ops hops hs with ⟨S, hfollows, hrunning, _⟩
  exact ⟨s, st, S, hs, hst, of_decide_eq_true hshow, hfollows, (hrunning st hst).1⟩

end Tautq
