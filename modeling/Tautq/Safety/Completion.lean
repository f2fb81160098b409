import Tautq.Safety.Runs

/-!
# Completions of One Job

All completions of a job should carry one lease sequence number. They do not:
an owner logs the completion before any replica has it, so a successor that
never heard of it inherits the lease, expires it, leases the job again and
completes that lease (`double_done`).

The other half says what is missing. A job is leased only while no log has a
completion of it, and a completion is started only on a copy that has the
newest lease in any log. Under these conditions a logged completion bounds
every logged lease of its job (`Bounded`), and so all completions agree.

## Main definitions

* `Cluster.undone`, `Cluster.newest`: What the logs say about a job.
* `OneCompletion`: The conditions.

## Theorems

* `double_done`: Two completions with different numbers.
* `done_leaseSeq_unique`: Under the conditions there is one number.
-/

namespace Tautq

open Status Cluster

/-- Whether a record is a completion of a job. -/
def Record.completes (id : JobId) : Record → Bool
  | .done id' _ _ => id' = id
  | _ => false

/-- The number of a lease record of a job. -/
def Record.leaseOf (id : JobId) : Record → Option Nat
  | .lease id' _ leaseSeq _ => if id' = id then some leaseSeq else none
  | _ => none

/-- No log has a completion of the job. -/
def Cluster.undone (c : Cluster) (id : JobId) : Prop :=
  ∀ r ∈ c.logs, r.completes id = false

/-- No log has a lease of the job with a higher number. -/
def Cluster.newest (c : Cluster) (id : JobId) (leaseSeq : Nat) : Prop :=
  ∀ r ∈ c.logs, ∀ s ∈ r.leaseOf id, s ≤ leaseSeq

instance (c : Cluster) (id : JobId) : Decidable (c.undone id) :=
  inferInstanceAs (Decidable (∀ r ∈ c.logs, r.completes id = false))

instance (c : Cluster) (id : JobId) (leaseSeq : Nat) : Decidable (c.newest id leaseSeq) :=
  inferInstanceAs (Decidable (∀ r ∈ c.logs, ∀ s ∈ r.leaseOf id, s ≤ leaseSeq))

/-- The job a trigger asks to complete. -/
def Trigger.completes : Trigger → Option JobId
  | .input (.ack id _ _ true) => some id
  | .packet (.request _ _ _ _ (.fwdAck id _ _ true)) => some id
  | _ => none

/-- Leases are asked for only where no leasable job has a logged completion. -/
def LeasesUndone : Cond := fun c e t =>
  match t with
  | .input (.lease _) => ∀ id ∈ (c.node e).store.table.jobs.keys, ∀ j ∈ (c.node e).find id,
      j.state = .ready → j.owner = e → c.undone id
  | _ => True

/-- Completions are asked for only where the copy has the newest logged lease. -/
def CompletesNewest : Cond := fun c e t =>
  ∀ id ∈ t.completes, ∀ j ∈ (c.node e).find id, j.state ≠ .done → c.newest id j.leaseSeq

/-- A claim learns of a completion only together with the newest logged lease. -/
def InheritsNewest : Cond := fun c e t =>
  ∀ x ∈ t.grants (c.node e), ∀ st ∈ (c.node e).claims.lookup x.1, ∀ j ∈ (c.node e).find x.1,
    j.state ≠ .done → st.bestState = .done ∨ x.2.1 = .done → c.newest x.1 (max st.bestSeq x.2.2)

/-- Responses are matched, no job is leased after a logged completion, and none
    is completed under an older lease than the newest logged one. -/
def OneCompletion : Cond := fun c e t =>
  Matched c e t ∧ LeasesUndone c e t ∧ CompletesNewest c e t ∧ InheritsNewest c e t

instance (c : Cluster) (e : Endpoint) (t : Trigger) : Decidable (OneCompletion c e t) := by
  have : Decidable (LeasesUndone c e t) :=
    match t with
    | .input (.lease _) => inferInstanceAs (Decidable (∀ id ∈ _, ∀ j ∈ _, _))
    | .input (.submit _) | .input (.ack _ _ _ _) | .input (.status _) | .input .tick
    | .input (.advance _) | .input (.view _) | .input (.peerDead _) | .input (.peerAlive _)
    | .input (.hello _) | .input .drain | .input .compact | .input (.restart _)
    | .packet _ => instDecidableTrue
  have : Decidable (CompletesNewest c e t) := by
    unfold CompletesNewest
    infer_instance
  have : Decidable (InheritsNewest c e t) := by
    unfold InheritsNewest
    infer_instance
  unfold OneCompletion
  infer_instance

/-! ### A run with two completions -/

namespace Trio

/-- The owner completes the job alone; its successor never hears of it, inherits
    the lease, expires it, leases the job again and completes that lease. -/
def lostCompletion : List Act :=
  views ++
    -- Submitted, replicated and leased to worker 7, the lease confirmed by `b`.
    [.does a (.submit params), .takes a 0, .takes a 1, .does a (.lease 7), .takes a 2, .takes b 1,
      .takes a 3,
    -- The completion is logged at `a`; its requests are never delivered.
      .does a (.ack job 1 1 true),
    -- `b` sees `a` dead, takes the job over with the grant of `c`, and expires the lease.
      .does b (.view [c]), .does b (.peerDead a), .takes b 2, .takes c 2, .does b (.advance 30000),
      .does b .tick,
    -- Leased again and completed, with the confirmation of `c`.
      .does b (.lease 8), .takes b 7, .takes c 3, .does b (.ack job 2 2 true)]

end Trio

/-- Two nodes log completions of one job under different leases. -/
theorem double_done : ∃ c, Trio.cluster.init.exec Trio.lostCompletion = some c ∧
    .done Trio.job 1 1 ∈ (c.node Trio.a).store.wal ∧
    .done Trio.job 2 2 ∈ (c.node Trio.b).store.wal := by
  exact run_shows (by decide +kernel)

/-! ### Under the conditions -/

/-- A logged completion bounds every logged lease of its job, and its number is
    zero or that of a logged lease. -/
structure Bounded (w : World) : Prop where
  bound : ∀ id epoch s epoch' s' worker, Logged w (.done id epoch s) →
    Logged w (.lease id epoch' s' worker) → s' ≤ s
  known : ∀ id epoch s, Logged w (.done id epoch s) → s = 0 ∨ LeaseLogged w id s

section Conditions

variable {d : Deployment} {c : Cluster} {e : Endpoint} {t : Trigger} {m : Node}

theorem Acks.completes {id : JobId} {epoch leaseSeq : Nat} {cb : AckCb}
    (h : Acks t id epoch leaseSeq true cb) : t.completes = some id := by
  cases h with
  | client ht => rw [ht, Trigger.completes]
  | forwarded ctx ht ha =>
    rcases Trigger.eq_of_ctx ht with ⟨dst, rfl⟩
    rw [ha, Trigger.completes]

theorem Reach.newest {id : JobId} {leaseSeq epoch s worker : Nat} (hr : Reach OneCompletion d c)
    (h : c.newest id leaseSeq) (hlog : Logged c.node (.lease id epoch s worker)) : s ≤ leaseSeq :=
  h _ ((hr.mem_logs _).mpr hlog) s (by simp [Record.leaseOf])

/-- The merged state of a claim is done only if one side was. -/
theorem merge_done {st : ClaimState} {state : JobState} {leaseSeq : Nat}
    (h : (st.merge (some (some state, leaseSeq))).bestState = .done) :
    st.bestState = .done ∨ state = .done := by
  simp only [ClaimState.merge] at h
  split at h
  · exact Or.inr h
  · exact Or.inl h

theorem merge_seq (st : ClaimState) (state : Option JobState) (leaseSeq : Nat) :
    (st.merge (some (state, leaseSeq))).bestSeq = max st.bestSeq leaseSeq := by
  simp only [ClaimState.merge]
  split <;> omega

/-- A completion being written under the conditions bounds every logged lease. -/
theorem Inside.done_bounds (hin : Inside OneCompletion d c e t m) {id : JobId} {epoch s : Nat}
    (hw : Writes t (c.node e) m (.done id epoch s)) :
    Logged (Function.update c.node e m) (.done id epoch s) ∨
      ((∀ epoch' s' worker, Logged (Function.update c.node e m) (.lease id epoch' s' worker) →
          s' ≤ s) ∧ (s = 0 ∨ LeaseLogged (Function.update c.node e m) id s)) := by
  have hK := hin.allowed
  cases hw with
  | serve ctx _ body serves =>
    cases serves with
    | apply _ fence l trigger asked =>
      -- The sender has logged it.
      have hmem := ((sane.reach hin.reach).applied (hin.asked trigger) asked).logged
      exact Or.inl (Logged.grows hin.grows ⟨ctx.src, hmem⟩)
  | begin_ id' l _ d' found owned begins =>
    cases begins with
    | done epoch' leaseSeq' cb acks open_ accepted first =>
      have hfind := Node.find_of_store first found
      have hnewest := hK.2.2.1 id acks.completes l hfind open_
      have hheld := held_known.inside hin e id l
      rw [Function.update_self] at hheld
      refine Or.inr ⟨fun epoch' s' worker hlog => ?_, ?_⟩
      · exact hin.reach.newest hnewest (logged_before first hlog)
      · rcases hheld (Node.held_of_find found) with ⟨hz, _⟩ | hlog
        · exact Or.inl hz
        · exact Or.inr hlog
  | inherit id' st l _ ripe found owned inherits =>
    have hknown := known_traceable.ripe (fun _ _ _ h => h.1) hin ripe
    cases ripe with
    | alone l' found' hstate hseq =>
      have hl : l' = l := Option.some.inj (found'.symm.trans found)
      subst hl
      rw [inherits_alone hstate hseq] at inherits
      cases inherits
    | granted dst body st₀ bit answers standing merged enough first =>
      unfold Node.inherits at inherits
      split at inherits
      · rename_i hdone
        simp only [Option.some.injEq, Record.done.injEq] at inherits
        rcases inherits with ⟨rfl, _, rfl⟩
        have hfind := Node.find_of_store first found
        have hgrant := hin.granted hK.1 answers
        rcases hgrant with ⟨proposed, state, leaseSeq, rfl, _, _⟩
        have hgrants := answers.grants
        have hbest := st₀.count_best bit
        have hst : st.bestState = .done ∧ st.bestSeq = max st₀.bestSeq leaseSeq := by
          refine ⟨hdone.1, ?_⟩
          rw [merged, ← hbest.2.1]
          exact merge_seq _ _ _
        have hside : st₀.bestState = .done ∨ state = .done := by
          have hmerged := hst.1
          rw [merged] at hmerged
          rcases merge_done hmerged with h | h
          · exact Or.inl (hbest.1 ▸ h)
          · exact Or.inr h
        have hnewest := hK.2.2.2 _ hgrants st₀ standing l hfind hdone.2 hside
        refine Or.inr ⟨fun epoch' s' worker hlog => ?_, ?_⟩
        · rw [hst.2]
          exact hin.reach.newest hnewest (logged_before first hlog)
        · rcases hknown with ⟨hz, _⟩ | hlog
          · exact Or.inl hz
          · exact Or.inr hlog
      · split at inherits
        · simp at inherits
        · split at inherits <;> simp at inherits

/-- A lease being written under the conditions finds no completion, or is not
    above what the logs have. -/
theorem Inside.lease_bounded (hin : Inside OneCompletion d c e t m) {id : JobId}
    {epoch s worker : Nat} (hw : Writes t (c.node e) m (.lease id epoch s worker)) :
    (∀ epoch' s', ¬ Logged (Function.update c.node e m) (.done id epoch' s')) ∨ s = 0 ∨
      LeaseLogged (Function.update c.node e m) id s := by
  have hK := hin.allowed
  cases hw with
  | serve ctx _ body serves =>
    cases serves with
    | apply _ fence l trigger asked =>
      have hmem := ((sane.reach hin.reach).applied (hin.asked trigger) asked).logged
      exact Or.inr (Or.inr ⟨epoch, worker, Logged.grows hin.grows ⟨ctx.src, hmem⟩⟩)
  | begin_ id' l _ d' found owned begins =>
    cases begins with
    | lease worker' trigger ready within first =>
      left
      intro epoch' s' hlog
      have hfind := Node.find_of_store first found
      have hleases := hK.2.1
      rw [trigger, LeasesUndone] at hleases
      have hkey : id ∈ (c.node e).store.table.jobs.keys :=
        AList.mem_keys.mpr (AList.lookup_isSome.mp (by
          change ((c.node e).find id).isSome = true
          rw [hfind]
          rfl))
      have hundone := hleases id hkey l hfind ready (owned.trans hin.self_eq)
      have hnot := hundone _ ((hin.reach.mem_logs _).mpr (logged_before first hlog))
      simp [Record.completes] at hnot
  | inherit id' st l _ ripe found owned inherits =>
    right
    have hknown := known_traceable.ripe (fun _ _ _ h => h.1) hin ripe
    have hheld := held_known.inside hin e id' l
    rw [Function.update_self] at hheld
    have hl := hheld (Node.held_of_find found)
    unfold Node.inherits at inherits
    split at inherits
    · simp at inherits
    · split at inherits
      · simp at inherits
      · split at inherits
        · simp only [Option.some.injEq, Record.lease.injEq] at inherits
          rcases inherits with ⟨rfl, _, rfl, _⟩
          -- The larger of the copy's number and the claim's.
          split
          · rcases hknown with ⟨hz, _⟩ | hlog
            · exact Or.inl hz
            · exact Or.inr hlog
          · rcases hl with ⟨hz, _⟩ | hlog
            · exact Or.inl hz
            · exact Or.inr hlog
        · cases inherits

theorem bounded : Always OneCompletion d Bounded := by
  refine always_of_moves ⟨?_, ?_⟩ (fun {c e t m m'} hin _ hmid hmove => ?_)
  · rintro id epoch s epoch' s' worker ⟨x, hx⟩
    cases hx
  · rintro id epoch s ⟨x, hx⟩
    cases hx
  · have hgrow := World.grows_update c.node e hmove.grows
    refine ⟨fun id epoch s epoch' s' worker hd hl => ?_, fun id epoch s hd => ?_⟩
    · -- A lease that joins the logs has an old completion to compare with, and the
      -- other way round: one move writes one record.
      have hlease : Logged (Function.update c.node e m) (.done id epoch s) →
          Writes t (c.node e) m (.lease id epoch' s' worker) → s' ≤ s := by
        intro hd' hw
        rcases hin.lease_bounded hw with hnone | hz | ⟨epoch'', worker'', hlog⟩
        · exact absurd hd' (hnone epoch s)
        · omega
        · exact hmid.bound id epoch s epoch'' s' worker'' hd' hlog
      have hdone : Logged (Function.update c.node e m) (.lease id epoch' s' worker) →
          Writes t (c.node e) m (.done id epoch s) → s' ≤ s := by
        intro hl' hw
        rcases hin.done_bounds hw with hold | ⟨hbound, _⟩
        · exact hmid.bound id epoch s epoch' s' worker hold hl'
        · exact hbound epoch' s' worker hl'
      rcases hmove.logged_step with hsame | ⟨r₁, hw, _, hstep⟩
      · exact hmid.bound id epoch s epoch' s' worker (hsame _ hd) (hsame _ hl)
      · rcases hstep _ hd with hd' | rfl
        · rcases hstep _ hl with hl' | rfl
          · exact hmid.bound id epoch s epoch' s' worker hd' hl'
          · exact hlease hd' hw
        · rcases hstep _ hl with hl' | hne
          · exact hdone hl' hw
          · cases hne
    · rcases hmove.logged_cases hd with hd' | ⟨hwd, _⟩
      · rcases hmid.known id epoch s hd' with hz | ⟨epoch', worker, hlog⟩
        · exact Or.inl hz
        · exact Or.inr ⟨epoch', worker, hlog.grows hgrow⟩
      · rcases hin.done_bounds hwd with hold | ⟨_, hz | ⟨epoch', worker, hlog⟩⟩
        · rcases hmid.known id epoch s hold with hz | ⟨epoch', worker, hlog⟩
          · exact Or.inl hz
          · exact Or.inr ⟨epoch', worker, hlog.grows hgrow⟩
        · exact Or.inl hz
        · exact Or.inr ⟨epoch', worker, hlog.grows hgrow⟩

end Conditions

/-- In every run that meets the conditions, all completions of a job in any log
    carry one lease sequence number. -/
theorem done_leaseSeq_unique (d : Deployment) (acts : List Act) (c : Cluster)
    (hrun : d.init.exec acts = some c) (hK : d.init.Meets OneCompletion acts) (id : JobId)
    (x x' : Endpoint) (epoch s epoch' s' : Nat) (hx : .done id epoch s ∈ (c.node x).store.log)
    (hx' : .done id epoch' s' ∈ (c.node x').store.log) : s = s' := by
  have hb := bounded.reach (Reach.of_run hrun hK)
  -- Each completion bounds the lease of the other.
  have hle : ∀ epoch s epoch' s', Logged c.node (.done id epoch s) →
      Logged c.node (.done id epoch' s') → s ≤ s' := by
    intro epoch s epoch' s' h h'
    rcases hb.known id epoch s h with hz | ⟨epoch'', worker, hlog⟩
    · omega
    · exact hb.bound id epoch' s' epoch'' s worker h' hlog
  exact le_antisymm (hle epoch s epoch' s' ⟨x, hx⟩ ⟨x', hx'⟩)
    (hle epoch' s' epoch s ⟨x', hx'⟩ ⟨x, hx⟩)

namespace Trio

/-- Submit, lease and completion, each confirmed by `b`. -/
def completion : List Act :=
  views ++
    [.does a (.submit params), .takes a 0, .takes b 0, .does a (.lease 7), .takes a 2, .takes b 1,
      .does a (.ack job 1 1 true), .takes a 4, .takes b 2]

end Trio

/-- The conditions are met by an ordinary run, in which two nodes log the completion. -/
theorem done_leaseSeq_unique_completion : ∃ c s s',
    Trio.cluster.init.exec Trio.completion = some c ∧
      Trio.cluster.init.Meets OneCompletion Trio.completion ∧
      .done Trio.job 1 s ∈ (c.node Trio.a).store.log ∧
      .done Trio.job 1 s' ∈ (c.node Trio.b).store.log ∧ s = s' := by
  have hK : Trio.cluster.init.Meets OneCompletion Trio.completion := by decide +kernel
  have hshow : ∃ c, Trio.cluster.init.exec Trio.completion = some c ∧
      .done Trio.job 1 1 ∈ (c.node Trio.a).store.log ∧
      .done Trio.job 1 1 ∈ (c.node Trio.b).store.log := run_shows (by decide +kernel)
  rcases hshow with ⟨c, hc, ha, hb⟩
  exact ⟨c, 1, 1, hc, hK, ha, hb,
    done_leaseSeq_unique _ _ c hc hK Trio.job Trio.a Trio.b 1 1 1 1 ha hb⟩

end Tautq
