import Tautq.Safety.Runs
import Tautq.Theory.Tended

/-!
# No Stranded Job

A job a node owns is one it will lease, expire or take over: a ready one is in
its queue or under a claim, a leased one has a deadline, a claim, or a lease
commit that is still to be decided.

Two paths forget a job. Two members that claim one job at the same epoch answer
each other with a stale epoch, and each gives its claim up and asks for the
higher authority, which does not exist. And an owner that starts again can get
its own lease back by a resync, after which no deadline is set for it, as only
a ready copy is looked after there. In every run without these two, no job is
stranded (`no_stranded_job`). A node whose log has stopped is not meant; it
sets up all jobs when it starts again.

## Main definitions

* `Trigger.refuses`: The job of a claim that is answered with a stale epoch.
* `Followed`: The two paths are not taken.

## Theorems

* `stranded_job`: Both paths strand a job.
* `no_stranded_job`: Every job a node owns is tracked.
-/

namespace Tautq

open Status Cluster

/-- The job of a claim that is answered with a stale epoch, by the call it finishes. -/
def Trigger.refuses (t : Trigger) (n : Node) : Option JobId :=
  match t with
  | .packet (.response _ _ _ reqId _ st _) =>
    match n.calls.lookup reqId with
    | some { cont := .claim id _, .. } => if st = kStaleEpoch then some id else none
    | _ => none
  | _ => none

/-- A claim that is given up is of a job that has gone to another owner or is terminal. -/
def ClaimsYield : Cond := fun c e t =>
  ∀ id ∈ t.refuses (c.node e), id ∈ (c.node e).claims → ∀ j ∈ (c.node e).find id,
    j.owner = e → j.terminal = true

/-- A copy of an active job that names the node as its owner does not replace the copy the
    node has. -/
def CopiesYield : Cond := fun c e t =>
  ∀ j ∈ t.brings (c.node e), j.owner = e → j.terminal = false →
    ∃ l ∈ (c.node e).find j.id, jobAdvances l j = false

/-- Neither path is taken. -/
def Followed : Cond := fun c e t =>
  ClaimsYield c e t ∧ CopiesYield c e t

instance (c : Cluster) (e : Endpoint) (t : Trigger) : Decidable (Followed c e t) :=
  inferInstanceAs (Decidable ((∀ id ∈ t.refuses (c.node e), id ∈ (c.node e).claims →
    ∀ j ∈ (c.node e).find id, j.owner = e → j.terminal = true) ∧
    ∀ j ∈ t.brings (c.node e), j.owner = e → j.terminal = false →
      ∃ l ∈ (c.node e).find j.id, jobAdvances l j = false))

/-! ### Two stranded jobs -/

namespace Trio

/-- `a` is believed dead, and `b` and `c` claim its job at the same epoch. `b` had already
    taken it over when the claim of `c` arrives, and the other way round. All packets are
    delivered. -/
def duel : List Act :=
  unleased ++
    [.does c (.view []), .does c (.peerDead a), .does b (.view [c]), .does b (.peerDead a),
      .takes b 1, .takes c 1, .takes b 2, .takes c 2, .does c (.view [b]), .does c (.advance 1000),
      .does c .tick, .takes c 3, .takes b 3, .takes c 4, .takes b 4]

/-- `a` leases its job, has it back by a nack that reaches nobody, and starts again. The copy of
    `c` still has the lease. -/
def regained : List Act :=
  unleased ++
    [.does a (.lease 7), .takes a 3, .takes c 1, .does a (.ack job 1 1 false), .does a (.restart 2),
      .takes a 7, .takes c 2]

end Trio

/-- A ready job of two owners that neither has in its queue, and a leased job that never
    expires. -/
theorem stranded_job :
    (∃ c, Trio.cluster.init.exec Trio.duel = some c ∧
      ∀ x ∈ [Trio.b, Trio.c], (c.node x).store.failed = false ∧
        (∃ j ∈ (c.node x).find Trio.job, j.owner = x ∧ j.state = .ready) ∧
        Trio.job ∉ (c.node x).ready ∧ Trio.job ∉ (c.node x).claims) ∧
    ∃ c, Trio.cluster.init.exec Trio.regained = some c ∧ (c.node Trio.a).store.failed = false ∧
      (∃ j ∈ (c.node Trio.a).find Trio.job, j.owner = Trio.a ∧ j.state = .leased) ∧
      Trio.job ∉ (c.node Trio.a).leaseDeadline ∧ Trio.job ∉ (c.node Trio.a).claims ∧
      (c.node Trio.a).qstates = [] :=
  ⟨run_shows (by decide +kernel), run_shows (by decide +kernel)⟩

/-! ### Every job is tracked -/

section Bearing

variable {K : Cond} {d : Deployment} {c : Cluster} {e : Endpoint} {t : Trigger} {m : Node}

/-- What a node handles in a run is what it bears. -/
theorem Inside.bears (hin : Inside K d c e t m) (hK : Followed c e t) : (c.node e).bears t := by
  have hself := (names.reach hin.reach e).1
  cases t with
  | input i => trivial
  | packet p =>
    cases p with
    | request src dst boot reqId body =>
      have hexp : ∃ k, Expects src e body k :=
        hin.expected (show Trigger.ctx _ = some { src, boot, reqId, asked := body } from rfl)
      cases body with
      | replicate j =>
        intro ho hact
        exact hK.2 j rfl (ho.trans hself) hact
      | apply r =>
        have hctx : Trigger.ctx (.packet (.request src dst boot reqId (.apply r))) =
          some { src, boot, reqId, asked := .apply r } := rfl
        have hcom := (sane.reach hin.reach).applied (hin.asked hctx) rfl
        rcases hexp with ⟨k, hk⟩
        cases hk with
        | apply _ slot q other =>
          refine ⟨fun hs => other (hself.symm.trans hs.symm), ?_⟩
          rcases hcom with ⟨_, _, _, _, _, htrans⟩
          generalize r.jobId = id at htrans
          cases htrans <;> rfl
      | claim id proposed newOwner =>
        rcases hexp with ⟨k, hk⟩
        cases hk with
        | claim _ _ other => exact fun hs => other (hself.symm.trans hs.symm)
      | _ => trivial
    | response src dst boot reqId asked st body =>
      rintro ⟨peer, deadline, k⟩ hcall
      cases k with
      | claim id dst' =>
        intro hst hclaim j hj ho
        have href : (Trigger.packet (.response src dst boot reqId asked st body)).refuses
            (c.node e) = some id := by
          simp only [Trigger.refuses, hcall, if_pos hst]
        have hterm := hK.1 id href hclaim j hj (ho.trans hself)
        unfold Job.terminal at hterm
        cases hs : j.state <;> simp [hs] at hterm ⊢
      | resync id =>
        intro j hj ho hact
        cases body with
        | job j' =>
          cases hj
          refine hK.2 j ?_ (ho.trans hself) hact
          simp only [Trigger.brings, hcall, Option.mem_def]
        | _ => cases hj
      | _ => trivial

/-- Every node of every run keeps track of its jobs. -/
theorem Reach.tended (h : Reach Followed d c) (e : Endpoint) :
    Tended (fun _ => False) (c.node e) := by
  rcases h with ⟨acts, hexec, hmeets⟩
  have hinv := @Run.exec_invariant _ _ Cluster.step (Allows Followed)
    (fun c => Reach Followed d c ∧ ∀ e, Tended (fun _ => False) (c.node e)) d.init
    ⟨.init, fun e _ id _ => tracks_of_none rfl⟩
    (fun c a c' hc hK hstep => by
      rcases hc with ⟨hr, ht⟩
      rcases hr.step hK hstep with ⟨hr', e, t, m, hin, hnode, htarget⟩
      refine ⟨hr', fun x => ?_⟩
      by_cases hx : x = e
      · subst hx
        rw [step_react hstep htarget]
        exact react_tended (n := { c.node x with sched := choices a }) (ht x)
          (hin.bears hin.allowed)
      · rw [hnode, Function.update_of_ne hx]
        exact ht x) acts c hexec hmeets
  exact hinv.2 e

end Bearing

/-- In every run that takes neither path, a ready job of a node's own is in its queue or under
    a claim, and a leased one has a deadline, a claim or a lease commit that is undecided. -/
theorem no_stranded_job (d : Deployment) (acts : List Act) (c : Cluster)
    (hexec : d.init.exec acts = some c) (hmeets : d.init.Meets Followed acts) (e : Endpoint)
    (hopen : (c.node e).store.failed = false) (id : JobId) (j : Job)
    (hj : (c.node e).find id = some j) (howner : j.owner = e) :
    (j.state = .ready → id ∈ (c.node e).ready ∨ id ∈ (c.node e).claims) ∧
    (j.state = .leased → id ∈ (c.node e).leaseDeadline ∨ id ∈ (c.node e).claims ∨
      ∃ s ∈ (c.node e).qstates, s.fired = false ∧
        ∃ epoch leaseSeq worker, s.done = .lease id epoch leaseSeq worker) := by
  have hreach := Reach.of_run hexec hmeets
  have hself := (names.reach hreach e).1
  have htracks := hreach.tended e hopen id (fun h => h)
  refine ⟨htracks.1 j hj (howner.trans hself.symm), fun hs => ?_⟩
  rcases htracks.2 j hj (howner.trans hself.symm) hs with hd | hc | ⟨epoch, leaseSeq, hpend⟩
  · exact Or.inl hd
  · exact Or.inr (Or.inl hc)
  · rcases List.mem_filterMap.mp hpend with ⟨s, hmem, htok⟩
    refine Or.inr (Or.inr ⟨s, hmem, ?_⟩)
    unfold QState.token at htok
    split at htok
    · rename_i hfired hdone
      cases htok
      exact ⟨hfired, _, _, _, hdone⟩
    · cases htok

namespace Trio

/-- `b` takes the job over from `a` with the grant of `c`, and leases it. -/
def relieved : List Act :=
  unleased ++
    [.does b (.view [c]), .does b (.peerDead a), .takes b 1, .takes c 1, .does b (.lease 7)]

end Trio

/-- The new owner has neither a deadline nor a claim, so the lease is being committed. -/
theorem no_stranded_job_relieved : ∃ c, Trio.cluster.init.exec Trio.relieved = some c ∧
    (∃ j ∈ (c.node Trio.b).find Trio.job, j.owner = Trio.b ∧ j.state = .leased) ∧
    Trio.job ∉ (c.node Trio.b).leaseDeadline ∧ Trio.job ∉ (c.node Trio.b).claims ∧
    ∃ s ∈ (c.node Trio.b).qstates, s.fired = false ∧
      ∃ epoch leaseSeq worker, s.done = .lease Trio.job epoch leaseSeq worker := by
  have hshow : ∃ c, Trio.cluster.init.exec Trio.relieved = some c ∧
      (c.node Trio.b).store.failed = false ∧
      (∃ j ∈ (c.node Trio.b).find Trio.job, j.owner = Trio.b ∧ j.state = .leased) ∧
      Trio.job ∉ (c.node Trio.b).leaseDeadline ∧ Trio.job ∉ (c.node Trio.b).claims :=
    run_shows (by decide +kernel)
  rcases hshow with ⟨c, hexec, hopen, ⟨j, hj, ho, hs⟩, hdead, hclaim⟩
  refine ⟨c, hexec, ⟨j, hj, ho, hs⟩, hdead, hclaim, ?_⟩
  have hall := (no_stranded_job _ _ c hexec (by decide +kernel) Trio.b hopen Trio.job j hj ho).2 hs
  exact (hall.resolve_left hdead).resolve_left hclaim

end Tautq
