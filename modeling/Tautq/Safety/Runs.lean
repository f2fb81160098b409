import Mathlib.Data.Finset.Card
import Tautq.Theory.Seq

/-!
# Runs

What the safety statements share: the records all logs of a cluster hold, the
passage from a run that meets a condition to a reachable state, and a small
deployment for runs that are written out.

A condition on a step may look at every log of the cluster. A cluster is a
function from names to nodes, so the condition reads the logs of the members;
a node that is no member has logged nothing, and `Reach.mem_logs` says the two
readings agree.

## Main definitions

* `Cluster.logs`: The records in the members' logs.
* `Trigger.brings`, `Trigger.grants`, `Trigger.decides`: What a trigger is about:
  a full copy, a claim reply, a commit to be decided.
* `InputsOf`: The condition that every input is one of a run's.
* `Granted`: A token was granted somewhere.
* `Unwrapped`: The condition that lease sequence numbers do not wrap.
* `Act.does`, `Act.takes`: A step in which every send and every append works.
* `Trio`: Three nodes that know each other.

## Theorems

* `Reach.of_run`, `Reach.of_inputs`: A run that meets a condition reaches its last
  state.
* `forwarded_acks`, `Inside.acked`: The tokens a node acts on are those clients present.
* `Reach.mem_logs`: The members' logs are all the logs there are.
* `held_pinned`, `peers_ne_nil`: Who has a copy of a job, and when there is
  somebody else to.
* `Writes.brings`: A full copy written for another node was brought by the
  trigger.
-/

namespace Tautq

open Status Cluster

/-- The records in the members' logs. -/
def Cluster.logs (c : Cluster) : List Record :=
  c.members.flatMap (fun e => (c.node e).store.log)

section Logs

variable {K : Cond} {d : Deployment} {c : Cluster}

theorem Reach.of_run {acts : List Act} (h : d.init.exec acts = some c) (hK : d.init.Meets K acts) :
    Reach K d c :=
  ⟨acts, h, hK⟩

/-- Every input is one of a run's. -/
def InputsOf (acts : List Act) : Cond := fun _ _ t =>
  ∀ i, t = .input i → ∃ x sched, .input x sched i ∈ acts

/-- The state a run ends in is reached with the run's own inputs. -/
theorem Reach.of_inputs {acts : List Act} (h : d.init.exec acts = some c)
    (hK : d.init.Meets K acts) : Reach (fun c e t => K c e t ∧ InputsOf acts c e t) d c := by
  refine .of_run h (Run.meets_mono (fun c a h x hx => ⟨h.1 x hx, fun i hi => ?_⟩) _ _
    (Run.meets_and _ _ hK (Run.meets_of_forall (K := fun _ a => a ∈ acts) _ _ (fun _ ha _ => ha))))
  cases a with
  | input dst sched i =>
    simp only [Cluster.target, Option.mem_def, Option.some.injEq] at hx
    subst hx
    cases hi
    exact ⟨dst, sched, h.2⟩
  | deliver src k sched =>
    simp only [Cluster.target, Option.mem_def, Option.map_eq_some_iff] at hx
    rcases hx with ⟨pk, _, rfl⟩
    cases hi

/-- A run that is held to nothing. -/
theorem meets_true (c : Cluster) (acts : List Act) : c.Meets (fun _ _ _ => True) acts :=
  Run.meets_of_forall _ _ (fun _ _ _ _ _ => trivial)

/-- A run goes on from a reachable state. -/
theorem Reach.run {c' : Cluster} {acts : List Act} (h : Reach K d c) (hexec : c.exec acts = some c')
    (hK : c.Meets K acts) : Reach K d c' := by
  rcases h with ⟨pre, hpre, hmeets⟩
  refine ⟨pre ++ acts, ?_, (Run.meets_append _ _ _ _ _ hpre).mpr ⟨hmeets, hK⟩⟩
  rw [Cluster.exec, Run.exec_append _ _ _ _ hpre]
  exact hexec

theorem Reach.grows {c' : Cluster} {acts : List Act} (h : Reach K d c)
    (hexec : c.exec acts = some c') (hmeets : c.Meets K acts) : World.Grows c.node c'.node := by
  refine h.along (R := World.Grows) (fun w e => .refl _) (fun {w₀ c e t m m'} _ hw hmove => ?_)
    hexec hmeets
  exact fun x => (hw x).trans (World.grows_update c.node e hmove.grows x)

/-- Where each record of a log takes its copy along a relation, so does the time a node has
    only grown in. -/
theorem Steps.find_of_grows {R : Job → Job → Prop} {n n' : Node} (hs : Steps R n'.store.log)
    (hrefl : ∀ j, R j j) (htrans : ∀ {a b c}, R a b → R b c → R a c) (hg : Grows n n') {id : JobId}
    {j : Job} (hj : n.find id = some j) : ∃ j', n'.find id = some j' ∧ R j j' := by
  rw [Node.find, n.store.replayed] at hj
  -- A record in doubt is in the log and not in the table, so only the records before count.
  have hheld := (held_last hj).mono hg.wal
  rcases (hs.mono n'.store.wal_prefix_log).held (R := R) hrefl htrans hheld with ⟨j', hj', hR⟩
  exact ⟨j', by rw [Node.find, n'.store.replayed]; exact hj', hR⟩

/-- Logs that only grew have copies of no earlier epoch. -/
theorem epoch_le_of_grows {n n' : Node} (hg : Grows n n') (hp : Proper n'.store.log) {id : JobId}
    {j : Job} (hj : n.find id = some j) : ∃ j', n'.find id = some j' ∧ j.epoch ≤ j'.epoch :=
  hp.steps.find_of_grows (fun _ => Nat.le_refl _) (fun h h' => Nat.le_trans h h') hg hj

/-- A run that is written out ends in a state that can be looked at. -/
theorem run_shows {acts : List Act} {P : Cluster → Prop} [DecidablePred P]
    (h : (d.init.exec acts).any (fun c => decide (P c)) = true) :
    ∃ c, d.init.exec acts = some c ∧ P c := by
  rcases (Option.any_eq_true _ _).mp h with ⟨c, hc, hp⟩
  exact ⟨c, hc, of_decide_eq_true hp⟩

/-- The same for a run that goes on from a state that was looked at. -/
theorem run_turns {acts acts' : List Act} {P : Cluster → Cluster → Prop}
    [∀ c c', Decidable (P c c')]
    (h : (d.init.exec acts).any (fun c => (c.exec acts').any (fun c' => decide (P c c'))) = true) :
    ∃ c c', d.init.exec acts = some c ∧ c.exec acts' = some c' ∧ P c c' := by
  rcases (Option.any_eq_true _ _).mp h with ⟨c, hc, h'⟩
  rcases (Option.any_eq_true _ _).mp h' with ⟨c', hc', hp⟩
  exact ⟨c, c', hc, hc', of_decide_eq_true hp⟩

/-- The members' logs are all the logs there are. -/
theorem Reach.mem_logs (h : Reach K d c) (r : Record) : r ∈ c.logs ↔ Logged c.node r := by
  rw [Cluster.logs, List.mem_flatMap]
  constructor
  · rintro ⟨e, _, he⟩
    exact ⟨e, he⟩
  · rintro ⟨e, he⟩
    have hmem : e ∈ d.members := by
      by_contra hnot
      rw [idle_of_not_mem h hnot] at he
      cases he
    exact ⟨e, (reach_sound h).1 ▸ hmem, he⟩

/-- Whoever has held a copy of a job is pinned in every copy. -/
theorem held_pinned : Always K d (fun w => ∀ x y id j j', Held (w x).store.log id j →
    Held (w y).store.log id j' → x ∈ j'.replicas.pinned) := by
  -- The empty endpoint names no node, so it has never held anything.
  have hempty : Always K d (fun w => (w {}).store.log = []) := by
    refine always_of_moves rfl (fun {c e t m m'} hin _ hmid _ => ?_)
    have hne : ({} : Endpoint) ≠ e := fun h => d.real (h ▸ hin.member)
    rw [Function.update_of_ne hne] at hmid ⊢
    exact hmid
  have hget : ∀ w : World, (w {}).store.log = [] → Sane w → ∀ x y id j j',
      Held (w x).store.log id j → Held (w y).store.log id j' → x ∈ j'.replicas.pinned := by
    intro w hw hsane x y id j j' hj hj'
    refine List.mem_filter.mpr ⟨?_, ?_⟩
    · rw [(hsane.same hj' hj).replicas]
      exact (hsane.held hj).2
    · have hreal : x ≠ {} := by
        rintro rfl
        rw [hw] at hj
        exact not_held_nil id j hj
      simpa using hreal
  exact ⟨fun hr => hget _ (hempty.reach hr) (sane.reach hr),
    fun hin => hget _ (hempty.inside hin) (sane.inside hin)⟩

/-- Whoever has a copy of a job is pinned. -/
theorem Reach.pinned (h : Reach K d c) {id : JobId} {o x : Endpoint} {j j' : Job}
    (hj : (c.node o).find id = some j) (hj' : (c.node x).find id = some j') :
    x ∈ j.replicas.pinned :=
  held_pinned.reach h x o id j' j (Node.held_of_find hj') (Node.held_of_find hj)

/-- What a step makes of the node it is about. -/
theorem step_react {c' : Cluster} {a : Act} {e : Endpoint} {t : Trigger} (h : c.step a = some c')
    (ht : c.target a = some (e, t)) :
    c'.node e = ({ c.node e with sched := choices a } : Node).react t := by
  unfold Cluster.step at h
  simp only [ht] at h
  split at h
  · cases h
    exact Function.update_self _ _ _
  · cases h

/-- While a step has not touched the store, the logs are those before it. -/
theorem logged_before {w : World} {e : Endpoint} {m : Node} {r : Record}
    (hs : m.store = (w e).store) (h : Logged (Function.update w e m) r) : Logged w r := by
  rcases h with ⟨x, hx⟩
  refine ⟨x, ?_⟩
  by_cases hxe : x = e
  · subst hxe
    rw [Function.update_self, hs] at hx
    exact hx
  · rwa [Function.update_of_ne hxe] at hx

/-! ### Presented tokens -/

/-- Whether an event hands out a token. -/
def Event.grants (id : JobId) (epoch leaseSeq : Nat) : Event → Prop
  | .granted _ g _ => g.id = id ∧ g.epoch = epoch ∧ g.leaseSeq = leaseSeq
  | _ => False

instance (id : JobId) (epoch leaseSeq : Nat) (ev : Event) :
    Decidable (ev.grants id epoch leaseSeq) := by
  cases ev <;> unfold Event.grants <;> infer_instance

/-- A token was granted somewhere. -/
def Granted (w : World) (id : JobId) (epoch leaseSeq : Nat) : Prop :=
  ∃ x, ∃ ev ∈ (w x).events, ev.grants id epoch leaseSeq

theorem Granted.grows {w w' : World} {id : JobId} {epoch leaseSeq : Nat} (hg : w.Grows w')
    (h : Granted w id epoch leaseSeq) : Granted w' id epoch leaseSeq := by
  rcases h with ⟨x, ev, hev, hgr⟩
  exact ⟨x, ev, (hg x).events.subset hev, hgr⟩

section Acks

variable {P : World → JobId → Nat → Nat → Bool → Prop}
  (mono : ∀ {w w' : World} {id epoch s success}, w.Grows w' → P w id epoch s success →
    P w' id epoch s success)
  (hK : ∀ c e t, K c e t → ∀ id epoch s success, t = .input (.ack id epoch s success) →
    P c.node id epoch s success)

include mono hK

/-- What is true of the tokens that clients present is true of those that are forwarded. -/
theorem forwarded_acks : Always K d (fun w => ∀ e, ∀ dst boot reqId id epoch s success,
    .request (w e).self dst boot reqId (.fwdAck id epoch s success) ∈ (w e).outbox →
      P w id epoch s success) := by
  refine always_of_node (Q := fun w n => ∀ dst boot reqId id epoch s success,
      .request n.self dst boot reqId (.fwdAck id epoch s success) ∈ n.outbox →
      P w id epoch s success)
    (fun hg h dst boot reqId id epoch s success hp =>
      mono hg (h dst boot reqId id epoch s success hp))
    (fun e => by simp [Deployment.init]) (fun {c e t m m'} hin _ hm hgrow hmove => ?_)
  intro dst boot reqId id epoch s success hp
  rw [hmove.self_eq.1] at hp
  rcases hmove.request_cases hp with hold | ⟨_, _, _, k, hasks, _⟩
  · exact mono hgrow (hm dst boot reqId id epoch s success hold)
  · cases hasks with
    | fwdAck _ _ _ _ j trigger =>
      exact mono (hin.tail hmove).grows (hK c e t hin.allowed id epoch s success trigger)

/-- It is true of the tokens the owner is asked about. -/
theorem Inside.acked {e : Endpoint} {t : Trigger} {m : Node} (hin : Inside K d c e t m) {id : JobId}
    {epoch s : Nat} {success : Bool} {cb : AckCb} (h : Acks t id epoch s success cb) :
    P c.node id epoch s success := by
  cases h with
  | client trigger => exact hK c e t hin.allowed id epoch s success trigger
  | forwarded ctx trigger asked =>
    have hsent := hin.asked trigger
    rw [Sent, asked] at hsent
    refine (forwarded_acks (P := P) mono hK).reach hin.reach ctx.src e ctx.boot ctx.reqId id epoch
      s success ?_
    rw [(names.reach hin.reach ctx.src).1]
    exact hsent

end Acks

end Logs

/-- A pinned member other than this node is one of its peers. -/
theorem mem_peers_of_pinned {j : Job} {me x : Endpoint} (hx : x ∈ j.replicas.pinned)
    (hne : x ≠ me) : ∃ s, (s, x) ∈ j.peers me := by
  rcases List.mem_filter.mp hx with ⟨hmem, hreal⟩
  have hcond : x ≠ {} ∧ x ≠ me := ⟨by simpa using hreal, hne⟩
  simp only [ReplicaSet.toList, List.mem_cons, List.not_mem_nil, or_false] at hmem
  rcases hmem with rfl | rfl | rfl
  · exact ⟨0, List.mem_filter.mpr ⟨by simp [ReplicaSet.slots], by simpa using hcond⟩⟩
  · exact ⟨1, List.mem_filter.mpr ⟨by simp [ReplicaSet.slots], by simpa using hcond⟩⟩
  · exact ⟨2, List.mem_filter.mpr ⟨by simp [ReplicaSet.slots], by simpa using hcond⟩⟩

/-- With two pinned members there is somebody to keep in sync. -/
theorem peers_ne_nil {j : Job} (h : 2 ≤ j.replicas.pinned.toFinset.card) (me : Endpoint) :
    j.peers me ≠ [] := by
  rcases Finset.exists_mem_ne h me with ⟨x, hx, hne⟩
  rcases mem_peers_of_pinned (List.mem_toFinset.mp hx) hne with ⟨s, hs⟩
  exact List.ne_nil_of_mem hs

/-- The full copy a trigger brings to a node: in a replicate request, or in the
    reply that finishes a resync. -/
def Trigger.brings (t : Trigger) (n : Node) : Option Job :=
  match t with
  | .packet (.request _ _ _ _ (.replicate j)) => some j
  | .packet (.response _ _ _ reqId _ _ (.job j)) =>
    match n.calls.lookup reqId with
    | some { cont := .resync _, .. } => some j
    | _ => none
  | _ => none

/-- The job and the report of a claim reply, by the call it finishes. -/
def Trigger.grants (t : Trigger) (n : Node) : Option (JobId × JobState × Nat) :=
  match t with
  | .packet (.response _ _ _ reqId _ _ (.claimInfo state leaseSeq)) =>
    match n.calls.lookup reqId with
    | some { cont := .claim id _, .. } => some (id, state, leaseSeq)
    | _ => none
  | _ => none

theorem Answers.grants {t : Trigger} {m₀ : Node} {id : JobId} {dst : Endpoint} {state : JobState}
    {leaseSeq : Nat} (h : Answers t m₀ (.claim id dst) kCreated (.claimInfo state leaseSeq)) :
    t.grants m₀ = some (id, state, leaseSeq) := by
  rcases h with ⟨src, dst', boot, reqId, asked, call, rfl, hcall, hk⟩
  rcases call with ⟨peer, deadline, cont⟩
  change cont = .claim id dst at hk
  subst hk
  simp only [Trigger.grants, hcall]

/-- The callback of the commit a confirmation decides: the first positive reply to
    one of its apply requests. -/
def Trigger.decides (t : Trigger) (n : Node) : Option DoneCb :=
  match t with
  | .packet (.response _ _ _ reqId _ st _) =>
    match n.calls.lookup reqId with
    | some { cont := .apply _ _ _ _ q, .. } =>
      match n.qstates[q]? with
      | some s => if st = kCreated ∧ s.fired = false then some s.done else none
      | none => none
    | _ => none
  | _ => none

theorem Answers.decides {t : Trigger} {m₀ : Node} {id : JobId} {slot : Nat} {member : Endpoint}
    {r : Record} {q : Nat} {s : QState} {body : Reply}
    (h : Answers t m₀ (.apply id slot member r q) kCreated body) (hq : m₀.qstates[q]? = some s)
    (hs : s.fired = false) : t.decides m₀ = some s.done := by
  rcases h with ⟨src, dst', boot, reqId, asked, call, rfl, hcall, hk⟩
  rcases call with ⟨peer, deadline, cont⟩
  change cont = .apply id slot member r q at hk
  subst hk
  simp only [Trigger.decides, hcall, hq]
  rw [if_pos ⟨trivial, hs⟩]

/-- No lease is taken of a copy whose sequence number would wrap. -/
def Unwrapped : Cond := fun c e t =>
  match t with
  | .input (.lease _) => ∀ x ∈ (c.node e).store.table.jobs.entries, x.2.leaseSeq + 1 < 2 ^ 32
  | _ => True

instance (c : Cluster) (e : Endpoint) (t : Trigger) : Decidable (Unwrapped c e t) := by
  unfold Unwrapped
  split <;> infer_instance

theorem Unwrapped.next {c : Cluster} {e : Endpoint} {worker : Nat} {id : JobId} {l : Job}
    (h : Unwrapped c e (.input (.lease worker))) (hl : (c.node e).find id = some l) :
    (l.leaseSeq + 1) % 2 ^ 32 = l.leaseSeq + 1 :=
  Nat.mod_eq_of_lt (h ⟨id, l⟩ (AList.mem_lookup_iff.mp hl))

/-- A full copy being written for another node was brought by the trigger. -/
theorem Writes.brings {t : Trigger} {m₀ m : Node} {j : Job} (h : Writes t m₀ m (.replicate j)) :
    t.brings m₀ = some j ∧ m.store = m₀.store := by
  cases h with
  | serve ctx _ body serves =>
    cases serves with
    | copy j' trigger asked unfenced first =>
      refine ⟨?_, first⟩
      rcases Trigger.eq_of_ctx trigger with ⟨dst, rfl⟩
      rw [asked, Trigger.brings]
    | apply _ epoch l trigger asked fence => cases fence
  | adopt id j' l answers same found ahead first =>
    refine ⟨?_, first⟩
    rcases answers with ⟨src, dst, boot, reqId, asked, call, rfl, hcall, hk⟩
    rcases call with ⟨peer, deadline, cont⟩
    change cont = .resync id at hk
    subst hk
    simp only [Trigger.brings, hcall]
  | begin_ id l _ d' found owned begins => cases begins
  | inherit id st l _ ripe found owned inherits =>
    exact absurd (inherits_spec inherits).2 (by simp [Record.full])

/-- A node handles an input, and every send and every append works. -/
def Act.does (e : Endpoint) (i : Input) : Act :=
  .input e {} i

/-- A packet is delivered, and every send and every append works. -/
def Act.takes (src : Endpoint) (k : Nat) : Act :=
  .deliver src k {}

namespace Trio

/-- The node the ring gives the key `[1]` to. -/
def a : Endpoint := ⟨2, 1⟩

/-- The next node on the ring. -/
def b : Endpoint := ⟨1, 1⟩

/-- The last one. -/
def c : Endpoint := ⟨3, 1⟩

/-- Three nodes, each configured with all of them. -/
def cluster : Deployment where
  members := [a, b, c]
  cfg := fun _ => { members := [a, b, c] }
  boot := fun _ => 1
  real := by decide

/-- Every node sees the other two. -/
def views : List Act :=
  [.does a (.view [b, c]), .does b (.view [a, c]), .does c (.view [a, b])]

/-- A submit that `a` owns. -/
def params : SubmitParams where
  idemKey := [1]
  url := [1]
  body := [7]

/-- The id of the first job `a` mints. -/
def job : JobId :=
  mintId a 1 1

/-- The job is stored on all three nodes and has never been leased. -/
def unleased : List Act :=
  views ++ [.does a (.submit params), .takes a 0, .takes a 1]

end Trio

end Tautq
