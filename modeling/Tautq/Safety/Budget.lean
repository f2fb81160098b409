import Tautq.Safety.Runs

/-!
# The Retry Budget

The owner of a job leases it at most as often as the job allows, and parks it
when a lease of the last number is lost. Both are decided on the owner's copy,
whose number may have come a long way: by a record, by a full copy, or by the
grant replies that a claim has merged. A reply that answers another request is
merged like a grant, and what it says is read as a state and a number; so a
job that allows five attempts is parked by its first (`parked_early`).

Where responses are matched, every number goes back to a logged lease, and
every parked state to a logged dead letter (`dead_traceable`). The first of
either was written by an owner that had looked (`budget`).

## Main definitions

* `Dead`: A parked state goes back to a logged dead letter.
* `Exhausted`: A job had a copy, not decided yet, with the last number.
* `Budget`: Logged leases are within the budget, and logged dead letters at its end.

## Theorems

* `parked_early`: A dead letter for a job that was never leased.
* `retry_budget`: With matched responses the budget is kept and used up.
-/

namespace Tautq

open Status Cluster

/-! ### A reply that is not a grant -/

namespace Trio

/-- `b` forwards a submit to `a`, restarts and shakes hands with `a` again. The first call it
    makes then is a claim of the job, and the answer to the submit finishes it. -/
def misread : List Act :=
  views ++
    [.does b (.submit params), .takes b 0, .takes a 0, .takes a 1,
      .does b (.restart 2), .does a (.hello b), .does b (.view [c]), .does b (.peerDead a),
    -- The owner answers when `c` has stored the job: to a request of that number.
      .takes c 0, .takes a 2, .does b (.advance 30000), .does b .tick]

end Trio

/-- The job allows five attempts. `b` logs lease 512, and parks the job when it expires; no
    copy has ever had number 5. -/
theorem parked_early : ∃ c, Trio.cluster.init.exec Trio.misread = some c ∧
    (c.node Trio.b).store.log.drop 1 = [.takeover Trio.job 2 Trio.b, .lease Trio.job 2 512 0,
      .deadLetter Trio.job 2] ∧
    (∀ x ∈ Trio.cluster.members, ((c.node x).find Trio.job).map Job.maxAttempts = some 5) ∧
    (∀ x ∈ [Trio.a, Trio.c], (c.node x).store.log.length = 1) ∧
    ∀ x ∈ Trio.cluster.members, ∀ n ≤ (c.node x).store.log.length,
      ((replay ((c.node x).store.log.take n)).find Trio.job).map Job.leaseSeq ≠ some 5 :=
  run_shows (by decide +kernel)

/-! ### Dead letters -/

/-- A parked state goes back to a logged dead letter. -/
def Dead (w : World) (id : JobId) (state : JobState) (_ : Nat) : Prop :=
  state = .deadLetter → ∃ epoch, Logged w (.deadLetter id epoch)

theorem dead_traceable : Traceable Dead where
  grows hg h hstate := by
    rcases h hstate with ⟨epoch, hlog⟩
    exact ⟨epoch, hlog.grows hg⟩
  fresh _ _ := by simp [Dead]
  on {w l r} h hr hlog := by
    intro hstate
    cases r with
    | submit | replicate => cases hr
    | deadLetter id epoch => exact ⟨epoch, hlog⟩
    | lease | done | expire =>
      simp only [Record.on] at hstate
      split at hstate
      · cases hstate
      · exact h hstate
    | takeover id epoch o =>
      rw [(takeover_on_state id epoch o l).1] at hstate
      exact h hstate
  merge {w id st state leaseSeq} hst h := by
    intro hstate
    simp only [ClaimState.merge] at hstate
    split at hstate
    · exact h hstate
    · exact hst hstate

/-! ### The budget -/

/-- A job had a copy, not decided yet, with the last number it allows. -/
def Exhausted (w : World) (id : JobId) : Prop :=
  ∃ x j, Held (w x).store.log id j ∧ j.leaseSeq = j.maxAttempts ∧ j.terminal = false

theorem Exhausted.grows {w w' : World} {id : JobId} (hg : w.Grows w') (h : Exhausted w id) :
    Exhausted w' id := by
  rcases h with ⟨x, j, hj, hseq, hopen⟩
  exact ⟨x, j, hj.mono (hg x).log, hseq, hopen⟩

/-- A number that the job was minted to allow. -/
def Allowed (w : World) (id : JobId) (leaseSeq : Nat) : Prop :=
  ∃ b, Minted w b ∧ b.id = id ∧ leaseSeq ≤ b.maxAttempts

theorem Allowed.grows {w w' : World} {id : JobId} {leaseSeq : Nat} (hg : w.Grows w')
    (h : Allowed w id leaseSeq) : Allowed w' id leaseSeq := by
  rcases h with ⟨b, hb, hid, hle⟩
  exact ⟨b, hb.grows hg, hid, hle⟩

/-- Logged leases are within the budget of their job, and logged dead letters at its end. -/
structure Budget (w : World) : Prop where
  lease : ∀ id epoch leaseSeq worker, Logged w (.lease id epoch leaseSeq worker) →
    Allowed w id leaseSeq
  dead : ∀ id epoch, Logged w (.deadLetter id epoch) → Exhausted w id

/-- A lease that is inherited has the number of the claim or that of the copy. -/
theorem inherits_lease_seq {id id' : JobId} {st : ClaimState} {l : Job} {epoch s worker : Nat}
    (h : Node.inherits id st l = some (.lease id' epoch s worker)) :
    s = st.bestSeq ∨ s = l.leaseSeq := by
  unfold Node.inherits at h
  split at h
  · cases h
  · split at h
    · cases h
    · split at h
      · cases h
        split
        · exact Or.inl rfl
        · exact Or.inr rfl
      · cases h

/-- A dead letter that is inherited is that of the claim. -/
theorem inherits_dead_state {id id' : JobId} {st : ClaimState} {l : Job} {epoch : Nat}
    (h : Node.inherits id st l = some (.deadLetter id' epoch)) : st.bestState = .deadLetter := by
  unfold Node.inherits at h
  split at h
  · cases h
  · split at h
    · rename_i hdead
      exact hdead.1
    · split at h <;> cases h

section Invariants

variable {K : Cond} {d : Deployment} {c : Cluster} {e : Endpoint} {t : Trigger} {m : Node}

/-- What a held copy's job was minted with. -/
theorem Sane.allowed {w : World} (hsane : Sane w) {x : Endpoint} {id : JobId} {j : Job}
    (hj : Held (w x).store.log id j) {leaseSeq : Nat} :
    Allowed w id leaseSeq ↔ leaseSeq ≤ j.maxAttempts := by
  have hborn := (hsane.held hj).1
  rcases hborn.birth with ⟨b, hb, hsame, _⟩
  have hid : j.id = id := hj.job_id
  constructor
  · rintro ⟨b', hb', hid', hle⟩
    have hbb := minted_unique hsane.names hsane.mints hb' hb (hid'.trans (hid.symm.trans hsame.id))
    rw [hsame.maxAttempts, ← hbb]
    exact hle
  · intro hle
    exact ⟨b, hb, hsame.id.symm.trans hid, hsame.maxAttempts ▸ hle⟩

/-- Within the budget of logged leases no copy is beyond it. -/
theorem Budget.held {w : World} (h : Budget w) (hsane : Sane w) {x : Endpoint}
    {id : JobId} {j : Job}
    (hj : Held (w x).store.log id j) (hknown : Known w id j.state j.leaseSeq) :
    j.leaseSeq ≤ j.maxAttempts := by
  rcases hknown with ⟨hz, _⟩ | ⟨epoch, worker, hlog⟩
  · omega
  · exact (hsane.allowed hj).mp (h.lease id epoch j.leaseSeq worker hlog)

/-- A lease that is written is within the budget. -/
theorem Inside.lease_allowed (hK : ∀ c e t, K c e t → Matched c e t) (hin : Inside K d c e t m)
    (hc : Budget c.node) (hm : Budget (Function.update c.node e m)) {id : JobId}
    {epoch s worker : Nat} (hw : Writes t (c.node e) m (.lease id epoch s worker)) :
    Allowed (Function.update c.node e m) id s := by
  have hsane := sane.inside hin
  have hcopy : ∀ {id l}, m.find id = some l →
      Held (Function.update c.node e m e).store.log id l := by
    intro id l hl
    rw [Function.update_self]
    exact Node.held_of_find hl
  cases hw with
  | serve ctx _ body serves =>
    cases serves with
    | apply _ epoch' l trigger asked =>
      -- The owner has logged the lease before it asked anybody.
      have hlog := ((sane.reach hin.reach).applied (hin.asked trigger) asked).logged
      exact (hc.lease id epoch s worker ⟨_, hlog⟩).grows hin.grows
  | begin_ id' l _ d' found owned begins =>
    cases begins with
    | lease worker' trigger ready within => exact (hsane.allowed (hcopy found)).mpr within
  | inherit id' st l _ ripe found owned inherits =>
    obtain rfl : id = id' := (inherits_spec inherits).1
    have hbest := known_traceable.ripe hK hin ripe
    have hl := known_traceable.held.inside hin e id l (hcopy found)
    have hle := hm.held hsane (hcopy found) hl
    rcases inherits_lease_seq inherits with rfl | rfl
    · rcases hbest with ⟨hz, _⟩ | ⟨epoch', worker', hlog⟩
      · exact (hsane.allowed (hcopy found)).mpr (by omega)
      · exact hm.lease id epoch' st.bestSeq worker' hlog
    · exact (hsane.allowed (hcopy found)).mpr hle

/-- A dead letter that is written is of an exhausted job. -/
theorem Inside.dead_exhausted (hK : ∀ c e t, K c e t → Matched c e t) (hin : Inside K d c e t m)
    (hc : Budget c.node) (hm : Budget (Function.update c.node e m)) {id : JobId} {epoch : Nat}
    (hw : Writes t (c.node e) m (.deadLetter id epoch)) :
    Exhausted (Function.update c.node e m) id := by
  have hsane := sane.inside hin
  -- The owner parks a copy that is at the end of the budget, and none is beyond it.
  have hlast : ∀ l : Job, m.find id = some l → l.maxAttempts ≤ l.leaseSeq → l.terminal = false →
      Exhausted (Function.update c.node e m) id := by
    intro l hl hge hopen
    have hcopy : Held (Function.update c.node e m e).store.log id l := by
      rw [Function.update_self]
      exact Node.held_of_find hl
    have hle := hm.held hsane hcopy (known_traceable.held.inside hin e id l hcopy)
    exact ⟨e, l, hcopy, le_antisymm hle hge, hopen⟩
  cases hw with
  | serve ctx _ body serves =>
    cases serves with
    | apply _ epoch' l trigger asked =>
      have hlog := ((sane.reach hin.reach).applied (hin.asked trigger) asked).logged
      exact (hc.dead id epoch ⟨_, hlog⟩).grows hin.grows
  | begin_ id' l _ d' found owned begins =>
    cases begins with
    | exhausted ready used =>
      have hmod := Nat.mod_le (l.leaseSeq + 1) (2 ^ 32)
      exact hlast l found (by omega) (by simp [Job.terminal, ready])
    | parked leased used => exact hlast l found used (by simp [Job.terminal, leased])
  | inherit id' st l _ ripe found owned inherits =>
    obtain rfl : id = id' := (inherits_spec inherits).1
    rcases dead_traceable.ripe hK hin ripe (inherits_dead_state inherits) with ⟨epoch', hlog⟩
    exact hm.dead id epoch' hlog

theorem budget (hK : ∀ c e t, K c e t → Matched c e t) : Always K d Budget := by
  refine always_of_moves ?_ (fun {c e t m m'} hin hc hmid hmove => ?_)
  · constructor <;> rintro id epoch <;> simp [Logged, Deployment.init, Store.log]
  have hgrow := World.grows_update c.node e hmove.grows
  constructor
  · intro id epoch s worker hlog
    rcases hmove.logged_cases hlog with hold | ⟨hw, _⟩
    · exact (hmid.lease id epoch s worker hold).grows hgrow
    · exact (hin.lease_allowed hK hc hmid hw).grows hgrow
  · intro id epoch hlog
    rcases hmove.logged_cases hlog with hold | ⟨hw, _⟩
    · exact (hmid.dead id epoch hold).grows hgrow
    · exact (hin.dead_exhausted hK hc hmid hw).grows hgrow

end Invariants

/-- In every run with matched responses: no logged lease of a job has a number beyond what
    any copy of the job allows, and when a dead letter of a job is logged, some node has held
    a copy of it, ready or leased, with the last number. -/
theorem retry_budget (d : Deployment) (acts : List Act) (c : Cluster)
    (hrun : d.init.exec acts = some c)
    (hK : d.init.Meets Matched acts) (e : Endpoint) (id : JobId) :
    (∀ epoch leaseSeq worker, .lease id epoch leaseSeq worker ∈ (c.node e).store.log →
      ∀ x j, Held (c.node x).store.log id j → leaseSeq ≤ j.maxAttempts) ∧
    ∀ epoch, .deadLetter id epoch ∈ (c.node e).store.log → ∃ x j, Held (c.node x).store.log id j ∧
      j.leaseSeq = j.maxAttempts ∧ j.terminal = false := by
  have hreach := Reach.of_run hrun hK
  have hsane := sane.reach hreach
  have hbudget := (budget (fun _ _ _ h => h)).reach hreach
  refine ⟨fun epoch s worker hlog x j hj => ?_, fun epoch hlog => hbudget.dead id epoch ⟨e, hlog⟩⟩
  exact (hsane.allowed hj).mp (hbudget.lease id epoch s worker ⟨e, hlog⟩)

namespace Trio

/-- A job that allows one attempt is leased, and the lease expires. -/
def usedUp : List Act :=
  views ++
    [.does a (.submit { params with maxAttempts := 1 }), .takes a 0, .does a (.lease 7), .takes a 2,
      .takes b 1, .does a (.advance 30000), .does a .tick]

end Trio

/-- Its dead letter comes after the copy with the one number it allows. -/
theorem retry_budget_usedUp : ∃ c, Trio.cluster.init.exec Trio.usedUp = some c ∧
    Trio.cluster.init.Meets Matched Trio.usedUp ∧
    .lease Trio.job 1 1 7 ∈ (c.node Trio.a).store.log ∧
    .deadLetter Trio.job 1 ∈ (c.node Trio.a).store.log ∧
    ∃ x j, Held (c.node x).store.log Trio.job j ∧ j.leaseSeq = j.maxAttempts ∧
    j.terminal = false := by
  have hK : Trio.cluster.init.Meets Matched Trio.usedUp := by decide +kernel
  have hshow : ∃ c, Trio.cluster.init.exec Trio.usedUp = some c ∧
      .lease Trio.job 1 1 7 ∈ (c.node Trio.a).store.log ∧
      .deadLetter Trio.job 1 ∈ (c.node Trio.a).store.log := run_shows (by decide +kernel)
  rcases hshow with ⟨c, hc, hlease, hdead⟩
  exact ⟨c, hc, hK, hlease, hdead, (retry_budget _ _ c hc hK Trio.a Trio.job).2 1 hdead⟩

end Tautq
