import Tautq.Safety.Exclusion

/-!
# The Lease Number Wraps

A node on its own, and a job whose attempts are limited by the largest 32-bit
word. The worker nacks every lease. A nack does not look at the limit; only the
next lease and an expiry do. The lease after the one under the largest number
computes its own as zero, which is within the limit, so it is granted under
number zero.

The run has more than `2 ^ 32` steps. One cycle takes a described state to the
next one, and the run is the iteration of the cycle.

## Main definitions

* `Solo.cycles`: The run, by the number of leases.
* `Solo.Queued`, `Solo.Out`: The node before and after a lease.

## Theorems

* `Solo.lease_queued`, `Solo.nack_out`: One lease and one nack.
* `wrapped_lease`: A grant under number zero after one under the largest number.
-/

namespace Tautq

open Status Cluster

namespace Solo

/-- One node that is configured with itself. -/
def cluster : Deployment where
  members := [Trio.a]
  cfg := fun _ => { members := [Trio.a] }
  boot := fun _ => 1
  real := by decide

/-- A submit with as many attempts as there are. -/
def params : SubmitParams :=
  { Trio.params with maxAttempts := 2 ^ 32 - 1 }

/-- The job after so many leases. -/
def copy (state : JobState) (leases : Nat) : Job where
  id := Trio.job
  idemKey := [1]
  url := [1]
  body := [7]
  visibilityMs := 30000
  maxAttempts := 2 ^ 32 - 1
  replicas := { first := Trio.a }
  state := state
  owner := Trio.a
  epoch := 1
  leaseSeq := leases
  attempts := leases

/-- The longest delay of a nacked job passes and a worker asks for a lease. -/
def again : List Act :=
  [.does Trio.a (.advance 60000), .does Trio.a (.lease 7)]

/-- The job is leased and nacked so many times. -/
def cycles : Nat → List Act
  | 0 => [.does Trio.a (.submit params)]
  | n + 1 => cycles n ++ (again ++ [.does Trio.a (.ack Trio.job 1 (n + 1) false)])

/-- The job is in the queue, after so many leases. -/
structure Queued (n : Nat) (m : Node) : Prop where
  self : m.self = Trio.a
  open_ : m.store.failed = false
  found : m.find Trio.job = some (copy .ready n)
  queue : m.ready = [Trio.job]
  backoff : ∀ t, m.notBefore.lookup Trio.job = some t → t ≤ m.now + 60000
  serving : m.draining = false
  calm : ∀ r ∈ m.store.log, r.isTakeover = false
  told : n ≠ 0 → ∃ r at_, .granted r (Node.grantOf Trio.job (copy .leased n)) at_ ∈ m.events

/-- The job is leased, and the lease was granted. -/
structure Out (n : Nat) (m : Node) : Prop where
  self : m.self = Trio.a
  open_ : m.store.failed = false
  found : m.find Trio.job = some (copy .leased n)
  queue : m.ready = []
  serving : m.draining = false
  calm : ∀ r ∈ m.store.log, r.isTakeover = false
  told : ∃ r at_, .granted r (Node.grantOf Trio.job (copy .leased n)) at_ ∈ m.events

theorem peers_copy {m : Node} (h : m.self = Trio.a) (state : JobState) (n : Nat) :
    (copy state n).peers m.self = [] := by
  rw [h]
  rfl

/-- A commit of a node whose disk works. -/
theorem commit_eq {m : Node} (hopen : m.store.failed = false) (hsched : m.sched = {}) (r : Record) :
    m.commit r = ({ m with store := m.store.append r }, true) := by
  have hs : m.sched.disk = [] := by rw [hsched]
  simp only [Node.commit, Store.commit, hopen, hs, List.headD_nil, List.tail_nil]
  rw [hsched]
  simp

/-- A transition of a job pinned on this node alone is decided at once. -/
theorem quorumCommit_eq {m : Node} (hself : m.self = Trio.a) (hopen : m.store.failed = false)
    (hsched : m.sched = {}) {r : Record} {k : DoneCb} {state : JobState} {n : Nat}
    (hfind : (m.store.table.apply r).find Trio.job = some (copy state n)) :
    m.quorumCommit Trio.job r k =
      ({ m with store := m.store.append r, repair := m.repair.insert Trio.job 0 } : Node).fireDone
        k true := by
  have hfound : ({ m with store := m.store.append r } : Node).find Trio.job = some (copy state n) :=
    hfind
  simp only [Node.quorumCommit, commit_eq hopen hsched, hfound, peers_copy hself, Node.trackQuorum,
    Bool.true_eq_false, if_false, if_true, List.foldl_nil]

theorem calm_append {s : Store} (hopen : s.failed = false) (h : ∀ r ∈ s.log, r.isTakeover = false)
    {r : Record} (hr : r.isTakeover = false) : ∀ r' ∈ (s.append r).log, r'.isTakeover = false := by
  intro r' hmem
  rw [s.log_append _ hopen, List.mem_append, List.mem_singleton] at hmem
  rcases hmem with hmem | rfl
  · exact h r' hmem
  · exact hr

/-- The picked job is leased under the next 32-bit word: the limit is the largest one, so
    no number exceeds it. -/
theorem leaseJob_eq {n : Nat} {m : Node} (hself : m.self = Trio.a) (hopen : m.store.failed = false)
    (hsched : m.sched = {}) (hfind : m.find Trio.job = some (copy .ready n)) :
    m.leaseJob (copy .ready n) 7 = ({ m with
      notBefore := m.notBefore.erase Trio.job
      store := m.store.append (.lease Trio.job 1 ((n + 1) % 2 ^ 32) 7)
      repair := m.repair.insert Trio.job 0
      leaseDeadline := m.leaseDeadline.insert Trio.job (m.now + 30000) } : Node).emit
        (.granted (.lease Trio.job 1 ((n + 1) % 2 ^ 32) 7)
          (Node.grantOf Trio.job (copy .leased ((n + 1) % 2 ^ 32))) m.now) := by
  have hreach : m.replicasReachable (copy .ready n) = true := by
    rw [Node.replicasReachable, peers_copy hself]
    rfl
  have hlimit : ¬ (copy .ready n).maxAttempts < ((copy .ready n).leaseSeq + 1) % 2 ^ 32 := by
    have hlt := Nat.mod_lt ((copy .ready n).leaseSeq + 1) (show 0 < 2 ^ 32 by decide)
    have hmax : (copy .ready n).maxAttempts = 2 ^ 32 - 1 := rfl
    omega
  have hafter : (m.store.table.apply (.lease Trio.job 1 ((n + 1) % 2 ^ 32) 7)).find Trio.job =
      some (copy .leased ((n + 1) % 2 ^ 32)) := by
    rw [find_apply_of_some _ hfind]
    simp [Record.on, Record.jobId, copy]
  have hq := quorumCommit_eq (m := { m with notBefore := m.notBefore.erase Trio.job })
    (k := .lease Trio.job 1 ((n + 1) % 2 ^ 32) 7) hself hopen hsched hafter
  rw [Node.leaseJob, if_neg (by rw [hreach]; decide)]
  refine (if_neg hlimit).trans (hq.trans ?_)
  have hfound : ({ m with
      notBefore := m.notBefore.erase Trio.job
      store := m.store.append (.lease Trio.job 1 ((n + 1) % 2 ^ 32) 7)
      repair := m.repair.insert Trio.job 0 } : Node).find Trio.job =
        some (copy .leased ((n + 1) % 2 ^ 32)) := hafter
  simp only [Node.fireDone, Node.leaseDone, hfound, if_true]
  rfl

/-- The next lease is granted. -/
theorem lease_queued {n : Nat} {m : Node} (h : Queued n m) (hsched : m.sched = {})
    (hlate : ∀ t, m.notBefore.lookup Trio.job = some t → t ≤ m.now) :
    Out ((n + 1) % 2 ^ 32) (m.lease 7) ∧ ∃ r at_, (m.lease 7).events =
      .granted r (Node.grantOf Trio.job (copy .leased ((n + 1) % 2 ^ 32))) at_ :: m.events := by
  have hscan : m.scanReady m.ready.length m.ready = (some (copy .ready n), []) := by
    rw [h.queue, List.length_singleton, Node.scanReady]
    simp only [h.found]
    rw [if_neg (by simp [copy, h.self])]
    cases hnb : m.notBefore.lookup Trio.job with
    | none => rfl
    | some t => exact if_neg (Nat.not_lt.mpr (hlate t hnb))
  have hlease : m.lease 7 = ({ m with ready := [] } : Node).leaseJob (copy .ready n) 7 := by
    simp only [Node.lease, h.serving, hscan, Bool.false_eq_true, if_false]
  rw [hlease, leaseJob_eq (m := { m with ready := [] }) h.self h.open_ hsched h.found]
  refine ⟨⟨h.self, h.open_, ?_, rfl, h.serving, ?_, ⟨_, _, List.mem_cons_self⟩⟩, _, _, rfl⟩
  · refine (find_apply_of_some (.lease Trio.job 1 ((n + 1) % 2 ^ 32) 7) h.found).trans ?_
    simp [Record.on, Record.jobId, copy]
  · exact calm_append h.open_ h.calm rfl

/-- The nack puts it back. -/
theorem nack_out {n : Nat} {m : Node} (h : Out n m) (hsched : m.sched = {}) :
    Queued n (m.ack Trio.job 1 n false) := by
  have hafter : (m.store.table.apply (.expire Trio.job 1 n)).find Trio.job =
      some (copy .ready n) := by
    rw [find_apply_of_some _ h.found]
    simp [Record.on, Record.jobId, copy]
  have hq := quorumCommit_eq
    (m := ({ m with leaseDeadline := m.leaseDeadline.erase Trio.job } : Node).emit
      (.nacked Trio.job 1 n m.now)) (k := .ignore) h.self h.open_ hsched hafter
  have hack : m.ack Trio.job 1 n false = m.nackJob Trio.job (copy .leased n) 1 n .client := by
    simp [Node.ack, Node.ownerAck, Node.currentLease, h.found, h.self, copy]
  rw [hack, Node.nackJob]
  change Queued n (Node.ackCb (Node.requeueReady
    (Node.quorumCommit _ Trio.job (.expire Trio.job 1 n) _) _ _) _ _ _ _)
  rw [hq]
  refine ⟨h.self, h.open_, hafter, ?_, ?_, h.serving, calm_append h.open_ h.calm rfl, fun _ => ?_⟩
  · change m.ready ++ [Trio.job] = _
    rw [h.queue, List.nil_append]
  · intro t ht
    change (m.notBefore.insert Trio.job _).lookup Trio.job = some t at ht
    rw [AList.lookup_insert, Option.some.injEq] at ht
    rw [← ht]
    exact Nat.add_le_add_left (Nat.min_le_right _ _) _
  · rcases h.told with ⟨r, at_, hmem⟩
    exact ⟨r, at_, List.mem_cons_of_mem _ (List.mem_cons_of_mem _ hmem)⟩

/-- The node is in a described state, and nobody else has logged anything. -/
structure Alone (P : Node → Prop) (c : Cluster) : Prop where
  members : c.members = [Trio.a]
  here : P (c.node Trio.a)
  elsewhere : ∀ x, x ≠ Trio.a → (c.node x).store.log = []

@[simp] theorem node_set (c : Cluster) (m : Node) : (c.set Trio.a m).node Trio.a = m := by
  simp [Cluster.set]

theorem Alone.set {P Q : Node → Prop} {c : Cluster} (h : Alone P c) {m : Node} (hm : Q m) :
    Alone Q (c.set Trio.a m) where
  members := h.members
  here := by
    rw [node_set]
    exact hm
  elsewhere x hx := by
    simp only [Cluster.set, Function.update_of_ne hx]
    exact h.elsewhere x hx

/-- An input of the node, where its disk works. -/
theorem Alone.does {P : Node → Prop} {c : Cluster} (h : Alone P c) (i : Input)
    (hadm : (c.node Trio.a).admits (.input i) = true) : c.step (.does Trio.a i) =
      some (c.set Trio.a (({ c.node Trio.a with sched := {} } : Node).perform i)) := by
  simp only [Cluster.step, Act.does, Cluster.target, h.members, hadm, Cluster.choices,
    Cluster.takenBy, Node.react, List.mem_singleton, and_self, if_true]
  rfl

theorem Out.reset {n : Nat} {m : Node} (h : Out n m) (sched : Sched) : Out n { m with sched } :=
  ⟨h.self, h.open_, h.found, h.queue, h.serving, h.calm, h.told⟩

/-- What the run is held to: workers present their tokens, and replies reach the call they
    answer. -/
def Honest : Cond := fun c e t =>
  Presented c e t ∧ Matched c e t

instance (c : Cluster) (e : Endpoint) (t : Trigger) : Decidable (Honest c e t) :=
  inferInstanceAs (Decidable (Presented c e t ∧ Matched c e t))

/-- A delay and a lease. -/
theorem again_run {n : Nat} {c : Cluster} (h : Alone (Queued n) c) : ∃ c', c.exec again = some c' ∧
    c.Meets Honest again ∧ Alone (Out ((n + 1) % 2 ^ 32)) c' ∧ ∃ r at_, (c'.node Trio.a).events =
      .granted r (Node.grantOf Trio.job (copy .leased ((n + 1) % 2 ^ 32))) at_ ::
        (c.node Trio.a).events := by
  have hm := h.here
  let m₁ : Node := { c.node Trio.a with sched := {}, now := (c.node Trio.a).now + 60000 }
  have h₁ : Alone (Queued n) (c.set Trio.a m₁) := by
    refine h.set ⟨hm.self, hm.open_, hm.found, hm.queue, fun t ht => ?_, hm.serving,
      hm.calm, hm.told⟩
    exact (hm.backoff t ht).trans (Nat.le_add_right _ _)
  have hstep₁ : c.step (.does Trio.a (.advance 60000)) = some (c.set Trio.a m₁) := h.does _ rfl
  have hstep₂ := h₁.does (.lease 7) rfl
  rw [node_set] at hstep₂
  rcases lease_queued (m := m₁) (node_set c m₁ ▸ h₁.here) rfl (fun t ht => hm.backoff t ht) with
    ⟨hout, hevents⟩
  refine ⟨(c.set Trio.a m₁).set Trio.a (m₁.lease 7), ?_, ?_, h₁.set hout, ?_⟩
  · simp only [Cluster.exec, again, Run.exec, hstep₁, Option.bind_some]
    exact congrArg (Option.bind · _) hstep₂
  · refine ⟨by simp [Cluster.Allows, Cluster.target, Act.does, Honest, Presented, Matched], ?_⟩
    intro c₁ _
    exact ⟨by simp [Cluster.Allows, Cluster.target, Act.does, Honest, Presented, Matched],
      fun _ _ => trivial⟩
  · rw [node_set]
    exact hevents

/-- The job is leased and nacked any number of times below the largest. -/
theorem cycles_run (n : Nat) (hn : n < 2 ^ 32) : ∃ c, cluster.init.exec (cycles n) = some c ∧
    cluster.init.Meets Honest (cycles n) ∧ Alone (Queued n) c := by
  induction n with
  | zero =>
    have hstart : ∃ c, cluster.init.exec (cycles 0) = some c ∧ c.members = [Trio.a] ∧
        (c.node Trio.a).self = Trio.a ∧ (c.node Trio.a).store.failed = false ∧
        (c.node Trio.a).find Trio.job = some (copy .ready 0) ∧
        (c.node Trio.a).ready = [Trio.job] ∧ (c.node Trio.a).notBefore.lookup Trio.job = none ∧
        (c.node Trio.a).draining = false ∧
        ∀ r ∈ (c.node Trio.a).store.log, r.isTakeover = false := run_shows (by decide +kernel)
    rcases hstart with ⟨c, hrun, hmem, hself, hopen, hfound, hqueue, hnb, hserving, hcalm⟩
    refine ⟨c, hrun, by decide +kernel, hmem,
      ⟨hself, hopen, hfound, hqueue, ?_, hserving, hcalm, ?_⟩, ?_⟩
    · intro t ht
      rw [hnb] at ht
      cases ht
    · exact fun h => absurd rfl h
    · intro x hx
      have hreach : Reach Honest cluster c := ⟨_, hrun, by decide +kernel⟩
      rw [idle_of_not_mem hreach (by simpa [cluster] using hx)]
      rfl
  | succ n ih =>
    rcases ih (by omega) with ⟨c, hrun, hK, hc⟩
    rcases again_run hc with ⟨c', hrun', hK', hout, _⟩
    rw [Nat.mod_eq_of_lt hn] at hout
    have hack := hout.does (.ack Trio.job 1 (n + 1) false) rfl
    have hpresented : Honest c' Trio.a (.input (.ack Trio.job 1 (n + 1) false)) := by
      rcases hout.here.told with ⟨r, at_, hmem⟩
      refine ⟨⟨Trio.a, ?_, _, hmem, rfl, rfl, rfl⟩, trivial⟩
      rw [hout.members]
      exact List.mem_singleton.mpr rfl
    refine ⟨_, ?_, ?_, hout.set (nack_out (hout.here.reset {}) rfl)⟩
    · rw [cycles, Cluster.exec, Run.exec_append _ _ _ _ hrun, Run.exec_append _ _ _ _ hrun',
        Run.exec]
      exact congrArg (Option.bind · _) hack
    · refine (Run.meets_append _ _ _ _ _ hrun).mpr ⟨hK, ?_⟩
      refine (Run.meets_append _ _ _ _ _ hrun').mpr ⟨hK', ?_, fun _ _ => trivial⟩
      rintro x hx
      cases hx
      exact hpresented

end Solo

/-- A grant under number zero comes after one under the largest number. -/
theorem wrapped_lease : ∃ acts c, Solo.cluster.init.exec acts = some c ∧
    Solo.cluster.init.Meets Solo.Honest acts ∧ NoTakeover c.node ∧
    ∃ r' g' at' rest r g at_, (c.node Trio.a).events = .granted r' g' at' :: rest ∧
      .granted r g at_ ∈ rest ∧ g.id = g'.id ∧ g.leaseSeq = 2 ^ 32 - 1 ∧ g'.leaseSeq = 0 := by
  -- The number of cycles is kept a variable, so that nothing unfolds them.
  obtain ⟨n, hn⟩ : ∃ n, n + 1 = 2 ^ 32 := ⟨2 ^ 32 - 1, by decide⟩
  rcases Solo.cycles_run n (by omega) with ⟨c, hrun, hK, hc⟩
  rcases Solo.again_run hc with ⟨c', hrun', hK', hout, r', at', hevents⟩
  rcases hc.here.told (by omega) with ⟨r, at_, htold⟩
  refine ⟨Solo.cycles n ++ Solo.again, c', ?_, ?_, ?_, r', _, at', _, r, _, at_, hevents, htold,
    rfl, ?_, ?_⟩
  · rw [Cluster.exec, Run.exec_append _ _ _ _ hrun]
    exact hrun'
  · exact (Run.meets_append _ _ _ _ _ hrun).mpr ⟨hK, hK'⟩
  · intro x r hr
    by_cases hx : x = Trio.a
    · subst hx
      exact hout.here.calm r hr
    · rw [hout.elsewhere x hx] at hr
      cases hr
  · change n = 2 ^ 32 - 1
    omega
  · change (n + 1) % 2 ^ 32 = 0
    rw [hn, Nat.mod_self]

end Tautq
