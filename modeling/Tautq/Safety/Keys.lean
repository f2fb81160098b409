import Tautq.Safety.Runs
import Tautq.Theory.Answers
import Tautq.Theory.Index

/-!
# One Job for a Key

A key has one owner on the ring of the configured membership, whatever the
liveness views, and only the owner mints jobs for it. The owner looks the key
up in an index that is part of the replayed table, so a log has at most one
submit record for a key, one whose append was reported as failed included.

The answers are another matter. Request ids start over with every incarnation,
and the answer to a forwarded submit is sent when the quorum is reached, on
whatever session stands then. A gateway that has restarted meanwhile takes it
for the answer to the submit it forwards now under the same request id, of
another key (`answer_of_other_key`). Where responses reach only the
incarnation that asked, every positive answer names the job of its key.

## Main definitions

* `Deployment.Uniform`: Every node is configured with the same membership.
* `Routed`: Submits are forwarded to, and minted at, the owner of the key.
* `KeyOf`: A job was minted for a key.

## Theorems

* `answer_of_other_key`: A client is told the job of another key.
* `minted_once`: A log has one submit record for a key.
* `one_job_per_key`: One job is minted for a key, and the answers name it.
-/

namespace Tautq

open Status Cluster

/-- Every node is configured with the same membership, itself included, listed in
    any order. -/
def Deployment.Uniform (d : Deployment) : Prop :=
  ∀ e ∈ d.members, ∀ e' ∈ d.members, ∀ x, x ∈ e :: (d.cfg e).members ↔ x ∈ e' :: (d.cfg e').members

/-! ### An answer of another key -/

namespace Trio

theorem uniform : cluster.Uniform := by
  intro e he e' he' x
  have hself : ∀ y ∈ cluster.members, x ∈ y :: (cluster.cfg y).members ↔ x ∈ cluster.members := by
    intro y hy
    constructor
    · intro h
      rcases List.mem_cons.mp h with rfl | h
      exacts [hy, h]
    · exact List.mem_cons_of_mem y
  rw [hself e he, hself e' he']

/-- A submit of another key. -/
def otherParams : SubmitParams where
  idemKey := [2]
  url := [1]
  body := [8]

/-- `b` forwards a submit, restarts, and forwards a submit of another key under the
    same request id; then the first one is answered, and the second is minted. -/
def reused : List Act :=
  views ++
    [.does b (.submit params), .takes b 0, .does b (.restart 2), .does b (.submit otherParams),
      .takes a 1, .takes c 0, .takes a 2, .takes b 1]

end Trio

/-- The client of the second key is told the job of the first. -/
theorem answer_of_other_key : Trio.cluster.Uniform ∧
    ∃ c, Trio.cluster.init.exec Trio.reused = some c ∧
      .submitAnswered [2] kCreated Trio.job ∈ (c.node Trio.b).events ∧
      ∃ b, b.idemKey = [2] ∧ .submit b ∈ (c.node Trio.a).store.log ∧ b.id ≠ Trio.job := by
  refine ⟨Trio.uniform, ?_⟩
  have hshow : ∃ c, Trio.cluster.init.exec Trio.reused = some c ∧
      .submitAnswered [2] kCreated Trio.job ∈ (c.node Trio.b).events ∧
      ∃ r ∈ (c.node Trio.a).store.log, ∃ b ∈ r.full, r = .submit b ∧ b.idemKey = [2] ∧
        b.id ≠ Trio.job := run_shows (by decide +kernel)
  rcases hshow with ⟨c, hc, hev, r, hr, b, _, hrb, hkey, hid⟩
  exact ⟨c, hc, hev, b, hkey, hrb ▸ hr, hid⟩

/-! ### Minting -/

section Invariants

variable {K : Cond} {d : Deployment} {c : Cluster} {e : Endpoint} {t : Trigger} {m m' : Node}

/-- All nodes agree on the owner of a key. -/
theorem Deployment.Uniform.ownerFor (h : d.Uniform) {x y : Node} (hx : x.self ∈ d.members)
    (hxc : x.cfg = d.cfg x.self) (hy : y.self ∈ d.members) (hyc : y.cfg = d.cfg y.self)
    (key : Bytes) : Ring.ownerFor key x.members = Ring.ownerFor key y.members := by
  refine Ring.ownerFor_congr key x.nodup_members y.nodup_members (fun z => ?_)
  rw [Node.mem_members, Node.mem_members, hxc, hyc]
  exact h x.self hx y.self hy z

/-- A log has one submit record for a key. -/
theorem minted_once : Always K d (fun w => ∀ e, ∀ b b' : Job, .submit b ∈ (w e).store.log →
    .submit b' ∈ (w e).store.log → b.idemKey = b'.idemKey → b = b') := by
  refine always_of_node (Q := fun _ n => ∀ b b' : Job, .submit b ∈ n.store.log →
    .submit b' ∈ n.store.log → b.idemKey = b'.idemKey → b = b') (fun _ h => h)
    (fun e => by simp [Deployment.init, Store.log]) (fun {c e t m m'} hin _ hm _ hmove => ?_)
  rcases hmove.log_cases with hlog | ⟨r, hw, hopen, hlog⟩
  · rw [hlog]
    exact hm
  · -- A record that is appended finds its key unindexed, so no record of the log has it.
    have hfresh : ∀ b b', .submit b ∈ m.store.log → r = .submit b' → b.idemKey ≠ b'.idemKey := by
      rintro b b' hb rfl hkey
      rcases hw.of_submit with ⟨p, _, rfl, _, hnone, _⟩
      rcases replay_indexed hb rfl with ⟨j, hj⟩
      have hindexed := indexes.inside hin e
      rw [Function.update_self] at hindexed
      rw [hindexed.findByIdem hopen, hkey] at hj
      rw [show (m.mintJob p).idemKey = p.idemKey from rfl, hnone] at hj
      cases hj
    intro b b' hb hb' hkey
    rw [hlog, List.mem_append, List.mem_singleton] at hb hb'
    rcases hb with hb | hb <;> rcases hb' with hb' | hb'
    · exact hm b b' hb hb' hkey
    · exact absurd hkey (hfresh b b' hb hb'.symm)
    · exact absurd hkey.symm (hfresh b' b hb' hb.symm)
    · exact Record.submit.inj (hb.trans hb'.symm)

/-- Submits are forwarded to, and minted at, the owner of the key. -/
structure Routed (n : Node) : Prop where
  forwarded : ∀ dst boot reqId p, .request n.self dst boot reqId (.fwdSubmit p) ∈ n.outbox →
    Ring.ownerFor p.idemKey n.members = dst
  minted : ∀ b, .submit b ∈ n.store.log → Ring.ownerFor b.idemKey n.members = n.self

theorem Inside.cfg_eq (hin : Inside K d c e t m) : m.self = e ∧ m.cfg = d.cfg e := by
  have h := names.inside hin e
  rw [Function.update_self] at h
  exact h

theorem routed (hd : d.Uniform) : Always K d (fun w => ∀ e, Routed (w e)) := by
  refine always_of_node (fun _ h => h)
    (fun e => by constructor <;> simp [Deployment.init, Store.log])
    (fun {c e t m m'} hin hc hm _ hmove => ?_)
  have hself := hmove.self_eq
  have hmembers : m'.members = m.members := by
    rw [Node.members, Node.members, hself.1, hself.2]
  have hme := hin.cfg_eq
  constructor
  · intro dst boot reqId p hp
    rw [hself.1] at hp
    rw [hmembers]
    rcases hmove.request_cases hp with hold | ⟨_, _, _, k, hasks, _⟩
    · exact hm.forwarded dst boot reqId p hold
    · cases hasks with
      | fwdSubmit => rfl
  · intro b hb
    rw [hself.1, hmembers]
    rcases hmove.record_cases hb with hold | hw
    · exact hm.minted b hold
    · rcases hw.of_submit with ⟨p, cb, rfl, hsub, _⟩
      change Ring.ownerFor p.idemKey m.members = m.self
      cases hsub with
      | client _ _ howner => exact howner
      | forwarded ctx htrig hasked =>
        -- The gateway that forwarded the submit has this node on its ring.
        have hsent := hin.asked htrig
        have hname := names.reach hin.reach ctx.src
        have hsrc := hin.sender_member htrig
        rw [Sent, hasked] at hsent
        have hroute := (hc ctx.src).forwarded e ctx.boot ctx.reqId p
          (by rw [hname.1]; exact hsent)
        rw [hme.1, ← hroute]
        refine hd.ownerFor ?_ ?_ ?_ ?_ p.idemKey
        · rw [hme.1]
          exact hin.member
        · rw [hme.1]
          exact hme.2
        · rw [hname.1]
          exact hsrc
        · rw [hname.1]
          exact hname.2

/-! ### Answers -/

/-- A job was minted for a key. -/
def KeyOf (w : World) (key : Bytes) (id : JobId) : Prop :=
  ∃ b, Minted w b ∧ b.idemKey = key ∧ b.id = id

theorem KeyOf.grows {w w' : World} {key : Bytes} {id : JobId} (hg : w.Grows w')
    (h : KeyOf w key id) : KeyOf w' key id := by
  rcases h with ⟨b, hb, hkey, hid⟩
  exact ⟨b, hb.grows hg, hkey, hid⟩

theorem minted_of_append {w : World} {p : SubmitParams}
    (h : m'.store = m.store.append (.submit (m.mintJob p))) :
    KeyOf (Function.update w e m') p.idemKey (m.mintJob p).id := by
  refine ⟨m.mintJob p, ⟨e, ?_⟩, rfl, rfl⟩
  rw [Function.update_self]
  refine m'.store.wal_prefix_log.subset ?_
  rw [h]
  exact List.mem_append_right _ (List.mem_singleton.mpr rfl)

/-- A pending submit waits for the job of its key. -/
theorem pending_keyed : Always K d (fun w => ∀ e, ∀ id ps,
    (w e).pendingSubmits.lookup id = some ps → KeyOf w ps.cb.key id) := by
  refine always_of_node (Q := fun w n => ∀ id ps, n.pendingSubmits.lookup id = some ps →
    KeyOf w ps.cb.key id) (fun hg h id ps hps => (h id ps hps).grows hg)
    (fun e id ps hps => by cases hps) (fun {c e t m m'} hin _ hm hgrow hmove => ?_)
  intro id ps hps
  cases hmove.waits hps with
  | kept found => exact (hm id ps found).grows hgrow
  | mint p submits stored same =>
    rw [submits.cb_key, same]
    exact minted_of_append stored
  | count ps' found cb =>
    rw [cb]
    exact (hm id ps' found).grows hgrow

/-- The index of a table names a job that was minted for the key. -/
theorem Sane.indexed {w : World} {x : Endpoint} (h : Sane w)
    (hi : Indexed (w x).store) {key : Bytes}
    {j : Job} (hj : (w x).store.table.findByIdem key = some j) : KeyOf w key j.id := by
  rcases Option.bind_eq_some_iff.mp hj with ⟨id, hid, hfind⟩
  rw [hi.table] at hid
  rcases replay_index_origin hid with ⟨r, hr, j', hfull, hkey, hid'⟩
  have hlog := (w x).store.wal_prefix_log.subset hr
  rcases ((h.copies x).full r hlog j' hfull).1.birth with ⟨b, hb, hsame, _⟩
  refine ⟨b, hb, hsame.idemKey.symm.trans hkey, ?_⟩
  rw [← hsame.id, hid', (w x).store.find_id hfind]

/-- Where responses are matched, every positive answer names a job of its key. -/
theorem answers_keyed (hK : ∀ c e t, K c e t → Matched c e t) :
    Always K d (fun w => ∀ e, Answered Positive KeyOf w (w e)) := by
  refine always_answered hK (fun _ h => h) KeyOf.grows
    (fun {c e t m m' cb st id} hin hmove h hst => ?_)
  have hgrow := World.grows_update c.node e hmove.grows
  cases h with
  | alone p _ submits writes peers stored =>
    rw [submits.cb_key]
    exact minted_of_append stored
  | duplicate p _ j submits found first =>
    rw [submits.cb_key]
    refine KeyOf.grows hgrow ((sane.inside hin).indexed (x := e) (indexes.inside hin e) ?_)
    rw [Function.update_self]
    exact found
  | refuse => rcases hst with h | h <;> cases h
  | answered _ ps _ found _ =>
    have hpend := pending_keyed.inside hin e
    rw [Function.update_self] at hpend
    exact (hpend id ps found).grows hgrow

end Invariants

/-- In every run of a uniformly configured cluster whose responses reach the
    incarnation that asked, one job is minted for a key, and every positive answer to
    a submit of the key names it. -/
theorem one_job_per_key (d : Deployment) (hd : d.Uniform) (acts : List Act) (c : Cluster)
    (hrun : d.init.exec acts = some c) (hK : d.init.Meets Matched acts) (key : Bytes) :
    (∀ b b', Minted c.node b → Minted c.node b' → b.idemKey = key → b'.idemKey = key →
      b.id = b'.id) ∧
    ∀ e st id, st = kCreated ∨ st = kDuplicate → .submitAnswered key st id ∈ (c.node e).events →
      ∃ b, Minted c.node b ∧ b.idemKey = key ∧ b.id = id := by
  have hreach := Reach.of_run hrun hK
  constructor
  · rintro b b' ⟨x, hb⟩ ⟨x', hb'⟩ hkey hkey'
    -- Both records are in the log of the owner of the key.
    have hmember : ∀ y b₀, .submit b₀ ∈ (c.node y).store.log → y ∈ d.members := by
      intro y b₀ hb₀
      by_contra hnot
      rw [idle_of_not_mem hreach hnot] at hb₀
      cases hb₀
    have hx := (routed hd).reach hreach x |>.minted b hb
    have hx' := (routed hd).reach hreach x' |>.minted b' hb'
    have hname := names.reach hreach x
    have hname' := names.reach hreach x'
    have howner :=
      hd.ownerFor (x := c.node x) (y := c.node x') (by rw [hname.1]; exact hmember x b hb)
      (by rw [hname.1]; exact hname.2) (by rw [hname'.1]; exact hmember x' b' hb')
      (by rw [hname'.1]; exact hname'.2) key
    rw [hkey] at hx
    rw [hkey'] at hx'
    have hxx : x = x' := by
      rw [← hname.1, ← hx, howner, hx', hname'.1]
    subst hxx
    rw [minted_once.reach hreach x b b' hb hb' (hkey.trans hkey'.symm)]
  · intro e st id hst hev
    exact ((answers_keyed (fun _ _ _ h => h)).reach hreach e).told key st id hst hev

namespace Trio

/-- A submit through the gateway `b`, which restarts, and the same key again at both. -/
def submittedThrice : List Act :=
  views ++
    [.does b (.submit params), .takes b 0, .takes a 1, .takes c 0, .takes a 2,
      .does a (.submit params), .does b (.restart 2), .does b (.submit params), .takes b 1,
      .takes a 3]

end Trio

/-- The conditions are met by a run in which both nodes are told the one job. -/
theorem one_job_per_key_submittedThrice : Trio.cluster.Uniform ∧
    ∃ c, Trio.cluster.init.exec Trio.submittedThrice = some c ∧
      Trio.cluster.init.Meets Matched Trio.submittedThrice ∧
      .submitAnswered [1] kCreated Trio.job ∈ (c.node Trio.b).events ∧
      .submitAnswered [1] kDuplicate Trio.job ∈ (c.node Trio.b).events ∧
      ∃ b, Minted c.node b ∧ b.idemKey = [1] ∧ b.id = Trio.job ∧
        ∀ b', Minted c.node b' → b'.idemKey = [1] → b.id = b'.id := by
  refine ⟨Trio.uniform, ?_⟩
  have hK : Trio.cluster.init.Meets Matched Trio.submittedThrice := by decide +kernel
  have hshow : ∃ c, Trio.cluster.init.exec Trio.submittedThrice = some c ∧
      .submitAnswered [1] kCreated Trio.job ∈ (c.node Trio.b).events ∧
      .submitAnswered [1] kDuplicate Trio.job ∈ (c.node Trio.b).events :=
        run_shows (by decide +kernel)
  rcases hshow with ⟨c, hc, hcreated, hdup⟩
  have hone := one_job_per_key _ Trio.uniform _ c hc hK [1]
  rcases hone.2 Trio.b kCreated Trio.job (Or.inl rfl) hcreated with ⟨b, hb, hkey, hid⟩
  exact ⟨c, hc, hK, hcreated, hdup, b, hb, hkey, hid,
    fun b' hb' hkey' => hone.1 b b' hb hb' hkey hkey'⟩

end Tautq
