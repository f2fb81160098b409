import Tautq.Safety.Budget
import Tautq.Safety.Completion

/-!
# What Done Goes Back To

A done state travels: by the owner's record, in a full copy, in a grant that a claim has merged.
However it came, it goes back to a logged completion (`finished_traceable`); and the first
completion of a job was started for a success that a worker had reported, at the owner or at a node
that forwarded it (`credited`).

## Main definitions

* `Finished`: A done state goes back to a logged completion.
* `Credited`: Completions go back to reports.

## Theorems

* `done_reported`: No job is done that no worker has reported.
-/

namespace Tautq

open Status Cluster

/-- A done state goes back to a logged completion. -/
def Finished (w : World) (id : JobId) (state : JobState) (_ : Nat) : Prop :=
  state = .done → ∃ epoch s, Logged w (.done id epoch s)

theorem finished_traceable : Traceable Finished where
  grows hg h hstate := by
    rcases h hstate with ⟨epoch, s, hlog⟩
    exact ⟨epoch, s, hlog.grows hg⟩
  fresh _ _ := by simp [Finished]
  on {w l r} h hr hlog := by
    intro hstate
    cases r with
    | submit | replicate => cases hr
    | done id epoch s => exact ⟨epoch, s, hlog⟩
    | lease | deadLetter | expire =>
      simp only [Record.on] at hstate
      split at hstate
      · cases hstate
      · exact h hstate
    | takeover id epoch o =>
      rw [(takeover_on_state id epoch o l).1] at hstate
      exact h hstate
  merge hst h hstate := (merge_done hstate).elim hst h

/-- Completions go back to reports. -/
def Credited (S : JobId → Prop) (w : World) : Prop :=
  ∀ id epoch s, Logged w (.done id epoch s) → S id

section Invariants

variable {K : Cond} {d : Deployment} {S : JobId → Prop}
  (hK : ∀ c e t, K c e t → Matched c e t ∧
    ∀ id epoch s, t = .input (.ack id epoch s true) → S id)

include hK

/-- A completion is written for a report, or where there is one already. -/
theorem Inside.done_reports {c : Cluster} {e : Endpoint} {t : Trigger} {m : Node}
    (hin : Inside K d c e t m) (hc : Credited S c.node)
    (hm : Credited S (Function.update c.node e m)) {id : JobId} {epoch s : Nat}
    (hw : Writes t (c.node e) m (.done id epoch s)) : S id := by
  cases hw with
  | serve ctx _ body serves =>
    cases serves with
    | apply _ epoch' l trigger asked =>
      exact hc id epoch s ⟨_, ((sane.reach hin.reach).applied (hin.asked trigger) asked).logged⟩
  | begin_ id' l _ d' found owned begins =>
    cases begins with
    | done epoch' s' cb acks =>
      exact hin.acked (P := fun _ id _ _ success => success = true → S id) (fun _ h => h)
        (fun c e t h id epoch s _ ht hsuccess => (hK c e t h).2 id epoch s (hsuccess ▸ ht)) acks rfl
  | inherit id' st l _ ripe found owned inherits =>
    obtain rfl : id = id' := (inherits_spec inherits).1
    -- An heir completes a job only if the claim has merged a done state.
    have hdone : st.bestState = .done := by
      unfold Node.inherits at inherits
      grind
    rcases finished_traceable.ripe (fun c e t h => (hK c e t h).1) hin ripe hdone with
      ⟨epoch', s', hlog⟩
    exact hm id epoch' s' hlog

theorem credited : Always K d (Credited S) := by
  refine always_of_moves (by simp [Credited, Logged, Deployment.init, Store.log])
    (fun {c e t m m'} hin hc hmid hmove id epoch s hlog => ?_)
  rcases hmove.logged_cases hlog with hold | ⟨hw, _⟩
  · exact hmid id epoch s hold
  · exact hin.done_reports hK hc hmid hw

end Invariants

/-- In every run with matched responses: if any node has ever held a copy of a job that was done,
    a worker had reported the success of that job to some node. -/
theorem done_reported (d : Deployment) (acts : List Act) (c : Cluster)
    (hrun : d.init.exec acts = some c)
    (hK : d.init.Meets Matched acts) (e : Endpoint) (id : JobId) (j : Job)
    (hj : Held (c.node e).store.log id j) (hdone : j.state = .done) :
    ∃ x sched epoch s, .input x sched (.ack id epoch s true) ∈ acts := by
  have hreach := Reach.of_inputs hrun hK
  rcases finished_traceable.held.reach hreach e id j hj hdone with ⟨epoch, s, hlog⟩
  refine (credited (S := fun id => ∃ x sched epoch s, .input x sched (.ack id epoch s true) ∈ acts)
    (fun _ _ _ h => ⟨h.1, fun id epoch s ht => ?_⟩)).reach hreach id epoch s hlog
  rcases h.2 _ ht with ⟨x, sched, hmem⟩
  exact ⟨x, sched, epoch, s, hmem⟩

/-- The completion that `a` has logged alone, under the lease of worker 7, goes back to a report. -/
theorem done_reported_lost : ∃ c j, Trio.cluster.init.exec Trio.lostCompletion = some c ∧
    Trio.cluster.init.Meets Matched Trio.lostCompletion ∧ (c.node Trio.a).find Trio.job = some j ∧
    j.state = .done ∧
    ∃ x sched epoch s, .input x sched (.ack Trio.job epoch s true) ∈ Trio.lostCompletion := by
  have hK : Trio.cluster.init.Meets Matched Trio.lostCompletion := by decide +kernel
  have hshow : ∃ c, Trio.cluster.init.exec Trio.lostCompletion = some c ∧
      ∃ j ∈ (c.node Trio.a).find Trio.job, j.state = .done := run_shows (by decide +kernel)
  rcases hshow with ⟨c, hc, j, hj, hdone⟩
  exact ⟨c, j, hc, hK, hj, hdone,
    done_reported _ _ c hc hK Trio.a Trio.job j (Node.held_of_find hj) hdone⟩

end Tautq
