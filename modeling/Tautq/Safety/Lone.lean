import Tautq.Safety.Pinned
import Tautq.Safety.Placement
import Tautq.Safety.SubmitMajority

/-!
# A Lone Owner

A job is pinned to the members its owner believes alive when it is submitted.
An owner that sees nobody pins the job to itself alone, whatever the cluster
was configured with, and from then on every write of the job is decided by
that one node: its submit is answered and its leases are granted while no
other node knows of it (`lone_decides`).

A job that is pinned to two members never is decided by one, also when its
owner sees nobody later: a submit is answered after a second node has stored
the job, a lease is granted after a second node has written it
(`accompanied_waits`). So all that has to be kept is that no job is born
lonely.

## Main definitions

* `Accompanied`: New keys are submitted where another member is alive.
* `Shared`: A job is on a node other than the one that minted it.
* `Seconded`: Another node has acknowledged a record.

## Theorems

* `lone_decides`: An owner without a view of others answers alone.
* `accompanied_waits`: Under the condition nobody does.
-/

namespace Tautq

open Status Cluster

/-- A key that is new to its owner is submitted while the owner believes another member
    alive. -/
def Company : Cond := fun c e t =>
  ∀ key ∈ t.submits (c.node e), (c.node e).store.table.findByIdem key = none →
    ∃ x ∈ (c.node e).peers, x ≠ e ∧ x ≠ {}

/-- Responses are matched, and no job is born lonely. -/
def Accompanied : Cond := fun c e t =>
  Matched c e t ∧ Company c e t

instance (c : Cluster) (e : Endpoint) (t : Trigger) : Decidable (Accompanied c e t) :=
  have : Decidable (Company c e t) :=
    inferInstanceAs (Decidable (∀ key ∈ t.submits (c.node e),
      (c.node e).store.table.findByIdem key = none → ∃ x ∈ (c.node e).peers, x ≠ e ∧ x ≠ {}))
  inferInstanceAs (Decidable (Matched c e t ∧ Company c e t))

/-! ### An owner that sees nobody -/

namespace Trio

/-- `b` and `c` are believed dead when `a` is given a job and asked for it. -/
def alone : List Act :=
  [.does a (.submit params), .does a (.lease 7)]

end Trio

/-- The submit is answered and the job is leased, and the other two configured members have
    nothing. -/
theorem lone_decides : ∃ c, Trio.cluster.init.exec Trio.alone = some c ∧
    Trio.cluster.members = [Trio.a, Trio.b, Trio.c] ∧ (c.node Trio.a).peers = [] ∧
    .submitAnswered [1] kCreated Trio.job ∈ (c.node Trio.a).events ∧
    .granted (.lease Trio.job 1 1 7) Trio.firstGrant 0 ∈ (c.node Trio.a).events ∧
    (c.node Trio.b).store.log = [] ∧ (c.node Trio.c).store.log = [] ∧
    (c.node Trio.b).outbox = [] ∧ (c.node Trio.c).outbox = [] :=
  run_shows (by decide +kernel)

/-! ### Pinned to two -/

/-- Of two distinct places one is taken by a member. -/
theorem exists_mem_take_two {α : Type} {v : List α} (hv : v.Nodup) {x none_ : α} (hx : x ∈ v)
    (hne : x ≠ none_) : ∃ y ∈ v.take 2, y ≠ none_ := by
  rcases v with _ | ⟨y, _ | ⟨z, rest⟩⟩
  · cases hx
  · exact ⟨y, List.mem_cons_self, List.mem_singleton.mp hx ▸ hne⟩
  · by_cases hy : y = none_
    · refine ⟨z, by simp, fun hz => ?_⟩
      rw [hy, hz, List.nodup_cons] at hv
      exact hv.1 List.mem_cons_self
    · exact ⟨y, by simp, hy⟩

/-- A set that starts with this node and goes on with others has two members. -/
theorem two_pinned {me x : Endpoint} {v : List Endpoint} (hme : me ≠ {}) (hv : (me :: v).Nodup)
    (hx : x ∈ v) (hne : x ≠ {}) :
    2 ≤ (ReplicaSet.mk me (v.getD 0 {}) (v.getD 1 {})).pinned.toFinset.card := by
  rcases List.nodup_cons.mp hv with ⟨hnot, hnodup⟩
  rcases exists_mem_take_two hnodup hx hne with ⟨y, hy, hreal⟩
  refine Finset.one_lt_card.mpr ⟨me, ?_, y, ?_, fun h => hnot (h ▸ List.mem_of_mem_take hy)⟩
  · rw [List.mem_toFinset, ReplicaSet.pinned]
    exact List.mem_filter.mpr ⟨by simp [ReplicaSet.toList], by simpa using hme⟩
  · rw [List.mem_toFinset, ReplicaSet.pinned]
    refine List.mem_filter.mpr ⟨?_, by simpa using hreal⟩
    rcases v with _ | ⟨z, _ | ⟨z', rest⟩⟩
    · cases hy
    · simp only [List.take_succ_cons, List.take_nil, List.mem_singleton] at hy
      simp [ReplicaSet.toList, hy]
    · simp only [List.take_succ_cons, List.take_zero, List.mem_cons, List.not_mem_nil,
        or_false] at hy
      rcases hy with rfl | rfl <;> simp [ReplicaSet.toList]

/-- With another member alive a new job is pinned to two. -/
theorem Node.pinReplicas_two {n : Node} (key : Bytes) (hself : n.self ≠ {}) {x : Endpoint}
    (hx : x ∈ n.peers) (hother : x ≠ n.self) (hreal : x ≠ {}) :
    2 ≤ (n.pinReplicas key).pinned.toFinset.card := by
  have halive : x ∈ n.alive := (mem_alive n x).mpr (List.mem_cons_of_mem _ hx)
  by_cases h : (Ring.replicaSet key n.alive).first = n.self
  · rw [pinReplicas, if_neg (by simpa using h)]
    -- The walk of the live members starts with this node.
    have hwalk := Ring.walk_positions (Ring.hashKey key) n.alive
    rw [Ring.replicaSet_of_walk hwalk, Ring.firstThree] at h ⊢
    generalize (Ring.positions n.alive).rotate _ = w at hwalk h ⊢
    have hmem : x ∈ w := hwalk.perm.mem_iff.mpr halive
    have hnodup : w.Nodup := hwalk.perm.nodup_iff.mpr n.nodup_alive
    rcases w with _ | ⟨me, v⟩
    · cases hmem
    · have hme : me = n.self := h
      subst hme
      exact two_pinned hself hnodup ((List.mem_cons.mp hmem).resolve_left hother) hreal
  · rw [pinReplicas, if_pos (by simpa using h)]
    refine two_pinned hself (List.nodup_cons.mpr ⟨by simp, n.nodup_alive.filter _⟩)
      (x := x) ?_ hreal
    exact List.mem_filter.mpr ⟨halive, by simpa using hother⟩

section Invariants

variable {K : Cond} {d : Deployment}

/-- No job is minted for one node. -/
theorem paired (hK : ∀ c e t, K c e t → Company c e t) :
    Always K d (fun w => ∀ e, ∀ r ∈ (w e).store.log, ∀ b, r = .submit b →
      2 ≤ b.replicas.pinned.toFinset.card) := by
  refine always_of_records (fun {c e t m r} hin hw b hb => ?_)
  subst hb
  -- The mint comes first in its step, so what the condition says of the node holds of it.
  rcases hw.of_submit with ⟨p, cb, rfl, hsub, hnone, hstore, _, hview⟩
  rw [hstore] at hnone
  rcases hK c e t hin.allowed p.idemKey (hin.submit_key hsub) hnone with ⟨x, hx, hne, hreal⟩
  rw [← hview] at hx
  exact Node.pinReplicas_two p.idemKey hin.self_ne hx (hin.self_eq ▸ hne) hreal

/-- So nobody has a job that it shares with nobody. -/
theorem Inside.peers_ne_nil (hK : ∀ c e t, K c e t → Company c e t) {c : Cluster} {e : Endpoint}
    {t : Trigger} {m : Node} (hin : Inside K d c e t m) {id : JobId} {l : Job}
    (h : m.find id = some l) (me : Endpoint) : l.peers me ≠ [] := by
  have hsane := sane.inside hin
  rcases (hsane.find (e := e) (by rw [Function.update_self]; exact h)).1.birth with
    ⟨b, ⟨x, hx⟩, hsame, _⟩
  rw [hsame.peers me]
  exact Tautq.peers_ne_nil ((paired hK).inside hin x _ hx b rfl) me

/-! ### Submits -/

/-- The job is on another node than the one that minted it. -/
def Shared (w : World) (id : JobId) : Prop :=
  ∃ o b x, .submit b ∈ (w o).store.log ∧ b.id = id ∧ x ≠ o ∧ (w x).has id

theorem Shared.grows {w w' : World} {id : JobId} (hg : w.Grows w') (h : Shared w id) :
    Shared w' id := by
  rcases h with ⟨o, b, x, hb, hid, hx, hxh⟩
  exact ⟨o, b, x, (hg o).log.subset hb, hid, hx, (w x).has_grows (hg x) hxh⟩

/-- A submit that is pending is one of this node's own jobs. -/
theorem pending_minted : Always K d (fun w => ∀ e id ps, (w e).pendingSubmits.lookup id = some ps →
    ∃ b, .submit b ∈ (w e).store.log ∧ b.id = id) := by
  refine always_of_node (Q := fun _ n => ∀ id ps, n.pendingSubmits.lookup id = some ps →
    ∃ b : Job, .submit b ∈ n.store.log ∧ b.id = id)
    (fun _ h => h) (fun e => by simp [Deployment.init]) (fun {c e t m m'} hin _ hm _ hmove => ?_)
  have hkeep : ∀ id ps, m.pendingSubmits.lookup id = some ps →
      ∃ b, .submit b ∈ m'.store.log ∧ b.id = id := by
    intro id ps hps
    rcases hm id ps hps with ⟨b, hb, hid⟩
    exact ⟨b, hmove.log_prefix.subset hb, hid⟩
  intro id ps hps
  cases hmove.waits hps with
  | kept found => exact hkeep id ps found
  | mint p submits stored same =>
    refine ⟨m.mintJob p, m'.store.wal_prefix_log.subset ?_, same.symm⟩
    rw [stored]
    exact List.mem_append_right _ (List.mem_singleton.mpr rfl)
  | count ps' found => exact hkeep id ps' found

/-- A submit is answered as created when a second node has the job. -/
theorem Inside.created_shared (hK : ∀ c e t, K c e t → Accompanied c e t) {c : Cluster}
    {e : Endpoint}
    {t : Trigger} {m m' : Node} (hin : Inside K d c e t m) (hmove : Move t (c.node e) m m')
    {cb : SubmitCb} {st : Status} {id : JobId} (h : SubmitTold t (c.node e) m m' cb st id)
    (hst : st = kCreated) : Shared (Function.update c.node e m') id := by
  have hcompany := fun c e t h => (hK c e t h).2
  cases h with
  | alone p _ submits writes peers stored =>
    -- The job would have been minted for this node alone.
    have htail := hin.tail hmove
    have hfind : m'.find (m.mintJob p).id = some (m.mintJob p) := by
      rw [Node.find, stored]
      exact find_append_submit _ _
    exact absurd peers (htail.peers_ne_nil hcompany hfind m.self)
  | duplicate => cases hst
  | refuse => cases hst
  | answered _ ps _ found h =>
    rcases h with ⟨_, hneed⟩ | h
    · rcases hin.pending_safe (fun c e t h => (hK c e t h).1) hmove found hneed with ⟨_, x, hx, hxh⟩
      have hmint := pending_minted.inside hin e
      rw [Function.update_self] at hmint
      rcases hmint id ps found with ⟨b, hb, hid⟩
      refine ⟨e, b, x, ?_, hid, hx, ?_⟩
      · rw [Function.update_self]
        exact hmove.log_prefix.subset hb
      · rw [Function.update_of_ne hx]
        exact hxh
    · rw [h] at hst
      cases hst

/-! ### Leases -/

/-- Whoever confirmed a record has it. -/
theorem confirmed_logged : Always K d (fun w => ∀ e (dst : Endpoint) (boot reqId : Nat) (r : Record)
    (body : Reply), .response (w e).self dst boot reqId (.apply r) kCreated body ∈ (w e).outbox →
      r ∈ (w e).store.log) := by
  refine always_of_node (Q := fun _ n => ∀ (dst : Endpoint) (boot reqId : Nat) (r : Record)
    (body : Reply), .response n.self dst boot reqId (.apply r) kCreated body ∈ n.outbox →
      r ∈ n.store.log) (fun _ h => h)
    (fun e => by simp [Deployment.init]) (fun {c e t m m'} hin _ hm _ hmove => ?_)
  have hwire := wire.inside hin e
  rw [Function.update_self] at hwire
  intro dst boot reqId r body hp
  rw [hmove.self_eq.1] at hp
  rcases hmove.response_cases hp with hold | hnew
  · exact hmove.log_prefix.subset (hm dst boot reqId r body hold)
  · rcases hnew.confirms hwire (Or.inr ⟨r, rfl⟩) with ⟨ctx, r', _, ha, serves, stored⟩
    cases serves with
    | copy j trigger ha' =>
      rw [ha] at ha'
      cases ha'
    | claim id proposed l trigger ha' =>
      rw [ha] at ha'
      cases ha'
    | apply _ epoch l trigger ha' =>
      have hr : r' = r := Request.apply.inj (ha'.symm.trans ha)
      subst hr
      refine m'.store.wal_prefix_log.subset ?_
      rw [stored]
      exact List.mem_append_right _ (List.mem_singleton.mpr rfl)

/-- Another node has acknowledged a record. -/
def Seconded (w : World) (e : Endpoint) (r : Record) : Prop :=
  ∃ x boot reqId body, x ≠ e ∧ .response x e boot reqId (.apply r) kCreated body ∈ (w x).outbox ∧
    r ∈ (w x).store.log

theorem Seconded.grows {w w' : World} {e : Endpoint} {r : Record} (hg : w.Grows w')
    (h : Seconded w e r) : Seconded w' e r := by
  rcases h with ⟨x, boot, reqId, body, hx, hp, hr⟩
  exact ⟨x, boot, reqId, body, hx, (hg x).outbox.subset hp, (hg x).log.subset hr⟩

/-- A lease is granted when a second node has acknowledged it. -/
theorem granted_seconded (hK : ∀ c e t, K c e t → Accompanied c e t) :
    Always K d (fun w => ∀ e r g at_, .granted r g at_ ∈ (w e).events → Seconded w e r) := by
  refine always_of_moves (fun e => by simp [Deployment.init])
    (fun {c e t m m'} hin _ hmid hmove => ?_)
  intro x r g at_ hev
  have hgrow := World.grows_update c.node e hmove.grows
  have hold : .granted r g at_ ∈ (Function.update c.node e m x).events →
      Seconded (Function.update c.node e m') x r := fun h => (hmid x r g at_ h).grows hgrow
  by_cases hx : x = e
  · subst hx
    rw [Function.update_self] at hold hev
    rcases hmove.event_cases hev with hbefore | hnew
    · exact hold hbefore
    cases hnew with
    | idle _ h => cases h
    | grantAlone id l _ epoch leaseSeq worker found owned begins peers =>
      exact absurd peers (hin.peers_ne_nil (fun c e t h => (hK c e t h).2) found m.self)
    | grant id id' slot member r' q s body epoch leaseSeq worker j answers state pending isLease
        found first same =>
      have hmatched := (hK c x t hin.allowed).1
      rcases hin.applied hmatched answers with ⟨hne, ⟨boot, reqId, hp⟩, _⟩
      have hcar := (hin.carried answers (same ▸ state)).2
      rw [isLease] at hcar
      have hr : r' = .lease id' epoch leaseSeq worker := hcar
      subst hr
      have hname := (names.reach hin.reach member).1
      have hlog :=
        confirmed_logged.reach hin.reach member x boot reqId _ body (by rw [hname]; exact hp)
      exact Seconded.grows (hin.tail hmove).grows ⟨member, boot, reqId, body, hne, hp, hlog⟩
  · rw [Function.update_of_ne hx] at hold hev
    exact hold hev

end Invariants

/-- In every run in which no job is born lonely, whatever the views are afterwards, a submit
    that is answered as created is of a job on a node other than the one that minted it, and
    a lease that is granted is one that another node has written and acknowledged. -/
theorem accompanied_waits (d : Deployment) (acts : List Act) (c : Cluster)
    (hrun : d.init.exec acts = some c) (hK : d.init.Meets Accompanied acts) (e : Endpoint) :
    (∀ key id, .submitAnswered key kCreated id ∈ (c.node e).events → Shared c.node id) ∧
      (∀ dst boot reqId p id, .response e dst boot reqId (.fwdSubmit p) kCreated (.jobId id) ∈
        (c.node e).outbox → Shared c.node id) ∧
      ∀ r g at_, .granted r g at_ ∈ (c.node e).events → Seconded c.node e r := by
  have hreach := Reach.of_run hrun hK
  have hanswers := (always_answered (d := d) (S := (· = kCreated)) (P := fun w _ id => Shared w id)
    (fun _ _ _ h => h.1) (fun _ h => Or.inl h) Shared.grows (fun hin hmove h hst =>
      hin.created_shared (fun _ _ _ h => h) hmove h hst)).reach hreach e
  refine ⟨fun key id hev => hanswers.told key kCreated id rfl hev, ?_,
    (granted_seconded (fun _ _ _ h => h)).reach hreach e⟩
  intro dst boot reqId p id hp
  exact hanswers.replied dst boot reqId p kCreated id rfl
    (by rw [(names.reach hreach e).1]; exact hp)

namespace Trio

/-- The job is replicated and leased with `b` and `c` alive, and after the replies the owner
    sees nobody any more. -/
def deserted : List Act :=
  unleased ++ [.takes b 0, .does a (.lease 7), .takes a 3, .does a (.view []), .takes c 1]

end Trio

/-- The grant of an owner that has lost sight of the others. -/
theorem accompanied_waits_deserted : ∃ c, Trio.cluster.init.exec Trio.deserted = some c ∧
    Trio.cluster.init.Meets Accompanied Trio.deserted ∧ (c.node Trio.a).peers = [] ∧
    Shared c.node Trio.job ∧ Seconded c.node Trio.a (.lease Trio.job 1 1 7) := by
  have hK : Trio.cluster.init.Meets Accompanied Trio.deserted := by decide +kernel
  have hshow : ∃ c, Trio.cluster.init.exec Trio.deserted = some c ∧ (c.node Trio.a).peers = [] ∧
      .submitAnswered [1] kCreated Trio.job ∈ (c.node Trio.a).events ∧
      .granted (.lease Trio.job 1 1 7) Trio.firstGrant 0 ∈ (c.node Trio.a).events :=
    run_shows (by decide +kernel)
  rcases hshow with ⟨c, hc, hview, hsubmit, hgrant⟩
  rcases accompanied_waits _ _ c hc hK Trio.a with ⟨hcreated, _, hleased⟩
  exact ⟨c, hc, hK, hview, hcreated _ _ hsubmit, hleased _ _ _ hgrant⟩

end Tautq
