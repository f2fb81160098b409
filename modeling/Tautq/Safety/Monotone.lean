import Tautq.Safety.Inherit

/-!
# Lease Sequence Numbers

The owner identifies a lease by its sequence number alone, whatever epoch it was
taken in. That asks for numbers that never go back, at any node, over the whole
run.

They do. A lease record sets the number of the copy it is applied to without
looking at it, and apply requests are not ordered, so the request of an older
lease that arrives late takes a replica back (`lease_seq_lowered`). A full copy
of a later epoch does so when the node it comes from has not heard of the
lease. All other records keep the number or raise it: as long as requests and
copies are not behind in this way, the number a node stores never goes down,
through takeovers, inherited leases, restarts and compactions
(`lease_seq_monotone`).

## Main definitions

* `CopiesCount`: A full copy that replaces the stored one is not behind.
* `SeqsClimb`: The conditions.

## Theorems

* `lease_seq_lowered`: A late lease record takes a replica from 2 to 1.
* `lease_seq_monotone`: Under the conditions no number ever goes back.
-/

namespace Tautq

open Status Cluster

/-- A full copy that replaces the stored one has no smaller sequence number. -/
def CopiesCount : Cond := fun c e t =>
  ∀ j ∈ t.brings (c.node e), ∀ l ∈ (c.node e).find j.id, jobAdvances l j = true →
    l.leaseSeq ≤ j.leaseSeq

/-- Neither a lease record nor a full copy is behind, and no number wraps. -/
def SeqsClimb : Cond := fun c e t =>
  LeasesClimb c e t ∧ CopiesCount c e t ∧ Unwrapped c e t

instance (c : Cluster) (e : Endpoint) (t : Trigger) : Decidable (SeqsClimb c e t) :=
  have : Decidable (CopiesCount c e t) :=
    inferInstanceAs (Decidable (∀ j ∈ t.brings (c.node e), ∀ l ∈ (c.node e).find j.id,
      jobAdvances l j = true → l.leaseSeq ≤ j.leaseSeq))
  inferInstanceAs (Decidable (LeasesClimb c e t ∧ CopiesCount c e t ∧ Unwrapped c e t))

namespace Trio

/-- `b` has lease 2 of the job, and the request that carries lease 1 is still on its way. -/
def overtaken : List Act :=
  unleased ++
    [.does a (.lease 7), .takes a 3, .takes c 1, .does a (.ack job 1 1 false),
      .does a (.advance 1000), .does a (.lease 8), .takes a 6]

end Trio

/-- The late request takes `b` back, within one epoch. -/
theorem lease_seq_lowered : ∃ c c', Trio.cluster.init.exec Trio.overtaken = some c ∧
    c.exec [.takes Trio.a 2] = some c' ∧
    ∃ j ∈ (c.node Trio.b).find Trio.job, ∃ j' ∈ (c'.node Trio.b).find Trio.job,
      j.epoch = j'.epoch ∧ j.leaseSeq = 2 ∧ j'.leaseSeq = 1 :=
  run_turns (by decide +kernel)

/-- A transition does not lower a sequence number, unless it is a lease record with a
    smaller one. -/
theorem Record.leaseSeq_le_on (r : Record) (l : Job) (hr : r.full = none)
    (hlease : ∀ id epoch s worker, r = .lease id epoch s worker → l.terminal = false →
      l.epoch ≤ epoch → l.leaseSeq ≤ s) : l.leaseSeq ≤ (r.on l).leaseSeq := by
  cases r with
  | submit | replicate => cases hr
  | lease id epoch s worker =>
    simp only [on]
    split
    case isTrue hg =>
      exact hlease id epoch s worker rfl (by simp [Job.terminal, hg.2]) hg.1
    case isFalse => exact Nat.le_refl _
  | done | expire | deadLetter | takeover =>
    simp only [on]
    split <;> exact Nat.le_refl _

section Runs

variable {d : Deployment} {c c' : Cluster} {e : Endpoint} {t : Trigger} {m : Node} {acts : List Act}

/-- No record being written lowers a sequence number. -/
theorem Inside.leaseSeq_le_on (hin : Inside SeqsClimb d c e t m) {r : Record} {l : Job}
    (hw : Writes t (c.node e) m r) (hl : m.find r.jobId = some l) :
    l.leaseSeq ≤ (r.on l).leaseSeq := by
  rcases hin.allowed with ⟨hleases, hcopies, hwrap⟩
  cases r with
  | submit b => exact absurd (Node.held_of_find hl) (hin.mint_unheld hw)
  | replicate j =>
    simp only [Record.on]
    split
    case isTrue hadv =>
      rcases hw.brings with ⟨hbrings, hfirst⟩
      rw [Node.find, hfirst] at hl
      exact hcopies j hbrings l hl hadv
    case isFalse => exact Nat.le_refl _
  | lease id epoch s worker =>
    refine Record.leaseSeq_le_on _ l rfl (fun id' epoch' s' worker' hr hact hle => ?_)
    cases hr
    exact hw.lease_climbs hleases hwrap hl hact hle
  | done | expire | deadLetter | takeover =>
    exact Record.leaseSeq_le_on _ l rfl (fun _ _ _ _ hr => by cases hr)

/-- The sequence numbers along a node's log never go down. -/
theorem seqs_climb :
    Always SeqsClimb d (fun w => ∀ e, Steps (fun a b => a.leaseSeq ≤ b.leaseSeq) (w e).store.log) :=
  always_of_writes (R := fun _ a b => a.leaseSeq ≤ b.leaseSeq)
    (fun hin hw hl => hin.leaseSeq_le_on hw hl)

end Runs

/-- In every run whose steps all meet the conditions, a copy stays at its node and its
    sequence number never goes down. -/
theorem lease_seq_monotone (d : Deployment) (acts acts' : List Act) (c c' : Cluster)
    (hrun : d.init.exec acts = some c) (hmeets : d.init.Meets SeqsClimb acts)
    (hrun' : c.exec acts' = some c') (hmeets' : c.Meets SeqsClimb acts') (e : Endpoint) (id : JobId)
    (j : Job) (hj : (c.node e).find id = some j) :
    ∃ j', (c'.node e).find id = some j' ∧ j.leaseSeq ≤ j'.leaseSeq := by
  have hreach : Reach SeqsClimb d c := .of_run hrun hmeets
  have hsteps := seqs_climb.reach (hreach.run hrun' hmeets') e
  exact hsteps.find_of_grows (fun _ => Nat.le_refl _) (fun h h' => Nat.le_trans h h')
    (hreach.grows hrun' hmeets' e) hj

namespace Trio

/-- `a` leases the job, with `b` hearing of it, and compacts its log. -/
def leasedOnce : List Act :=
  unleased ++ [.does a (.lease 7), .takes a 2, .does a .compact]

/-- `b` takes the job over with the grant of `c`, which missed the lease, and starts again. -/
def takenAfter : List Act :=
  [.does b (.view [c]), .does b (.peerDead a), .takes b 2, .takes c 1, .does b (.restart 2)]

end Trio

/-- The new owner keeps the number of the lease. -/
theorem lease_seq_monotone_takenAfter : ∃ c c', Trio.cluster.init.exec Trio.leasedOnce = some c ∧
    c.exec Trio.takenAfter = some c' ∧
    ∃ j', (c'.node Trio.b).find Trio.job = some j' ∧ 1 ≤ j'.leaseSeq := by
  have hshow : ∃ c c', Trio.cluster.init.exec Trio.leasedOnce = some c ∧
      c.exec Trio.takenAfter = some c' ∧ (c.Meets SeqsClimb Trio.takenAfter ∧
        ∃ j ∈ (c.node Trio.b).find Trio.job, j.leaseSeq = 1) := run_turns (by decide +kernel)
  rcases hshow with ⟨c, c', hc, hc', hmeets', j, hj, hone⟩
  rcases lease_seq_monotone _ _ _ c c' hc (by decide +kernel) hc' hmeets' Trio.b Trio.job j hj with
    ⟨j', hj', hle⟩
  exact ⟨c, c', hc, hc', j', hj', hone ▸ hle⟩

end Tautq
