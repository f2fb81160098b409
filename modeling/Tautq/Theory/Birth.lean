import Tautq.Theory.Log
import Tautq.Theory.Ring
import Tautq.Theory.Rpc

/-!
# Where Copies Come From

Every full copy of a job, in a log, in a table or in flight, goes back to one
submit record in the log of the node that minted it. What was fixed at submit
never changes after that, so all copies of a job agree on it, in particular on
the pinned set; and only pinned members ever hold a copy or are named its
owner.

The argument rests on minted ids being unique: the origin is the node's own
key, and the nonce has the incarnation in its upper half and a counter in its
lower half.

## Main definitions

* `mintId`: The id an incarnation mints under a number.
* `Minted`: A job some node logged the submit of.
* `Born`: A copy that goes back to a minted job.
* `Mints`, `Copies`: What holds of a node's submit records and its copies.

## Theorems

* `mints`, `copies`: Both hold of every node at all times.
* `minted_unique`: Minted jobs are told apart by their ids.
* `Born.same`: Two copies under one id agree on what was fixed at submit.
-/

namespace Tautq

open Status Cluster

/-! ### Minted ids -/

/-- The id an incarnation mints under a number. -/
def mintId (e : Endpoint) (boot seq : Nat) : JobId where
  origin := ekey e
  nonce := (boot % 2 ^ 32) <<< 32 ||| seq % 2 ^ 32

theorem mintId_inj {e e' : Endpoint} {boot boot' seq seq' : Nat} (hs : seq < 2 ^ 32)
    (hs' : seq' < 2 ^ 32) (h : mintId e boot seq = mintId e' boot' seq') :
    e = e' ∧ boot % 2 ^ 32 = boot' % 2 ^ 32 ∧ seq = seq' := by
  simp only [mintId, JobId.mk.injEq] at h
  have hn := shiftLeft_or_inj (k := 32) (Nat.mod_lt _ (by decide)) (Nat.mod_lt _ (by decide)) h.2
  rw [Nat.mod_eq_of_lt hs, Nat.mod_eq_of_lt hs'] at hn
  exact ⟨ekey_inj h.1, hn.1, hn.2⟩

/-- A job as it is minted. -/
structure Newborn (e : Endpoint) (b : Job) : Prop where
  first : b.replicas.first = e
  owner : b.owner = e
  epoch : b.epoch = 1
  state : b.state = .ready
  leaseSeq : b.leaseSeq = 0

theorem mintJob_newborn (n : Node) (p : SubmitParams) : Newborn n.self (n.mintJob p) :=
  ⟨n.pinReplicas_first p.idemKey, rfl, rfl, rfl, rfl⟩

/-- What holds of the submit records a node has logged. -/
structure Mints (n : Node) : Prop where
  ids : ∀ b, .submit b ∈ n.store.log → ∃ boot seq, boot ∈ n.boot :: n.boots ∧ seq < 2 ^ 32 ∧
    (boot = n.boot → seq < n.nextJobSeq) ∧ b.id = mintId n.self boot seq
  newborn : ∀ b, .submit b ∈ n.store.log → Newborn n.self b
  unique : ∀ b b', .submit b ∈ n.store.log → .submit b' ∈ n.store.log → b.id = b'.id → b = b'

/-- Only a mint writes a submit record. -/
theorem Writes.of_submit {t : Trigger} {m₀ m : Node} {b : Job} (h : Writes t m₀ m (.submit b)) :
    ∃ p cb, b = m.mintJob p ∧ Submits t m p cb ∧ m.store.table.findByIdem p.idemKey = none ∧
      m.store = m₀.store ∧ m.nextJobSeq = m₀.nextJobSeq ∧ m.peers = m₀.peers := by
  cases h with
  | mint p cb submits fresh first count admitting view =>
    exact ⟨p, cb, rfl, submits, fresh, first, count, view⟩
  | serve ctx _ body serves => exact absurd rfl (serves.not_submit b)
  | begin_ id l _ d found owned begins => exact absurd rfl (begins.not_submit b)
  | inherit id st l _ ripe found owned inherits =>
    exact absurd (inherits_spec inherits).2 (by simp [Record.full])

section Invariants

variable {K : Cond} {d : Deployment}

/-- An incarnation that mints has numbers left. -/
theorem Inside.mint_lt {c : Cluster} {e : Endpoint} {t : Trigger} {m : Node} {p : SubmitParams}
    {cb : SubmitCb} (hin : Inside K d c e t m) (h : Submits t m p cb) :
    (c.node e).nextJobSeq < 2 ^ 32 := by
  have hadm := hin.admitted
  cases h with
  | client ht =>
    rw [ht, Node.admits, decide_eq_true_eq] at hadm
    exact hadm
  | forwarded ctx ht ha =>
    rcases Trigger.eq_of_ctx ht with ⟨dst, rfl⟩
    rw [ha, Node.admits, decide_eq_true_eq] at hadm
    exact hadm

/-- An id about to be minted is not the id of a submit record of this node. -/
theorem Mints.fresh {n : Node} (h : Mints n) (hboots : ((n.boot :: n.boots).map (· % 2 ^ 32)).Nodup)
    (hlt : n.nextJobSeq < 2 ^ 32) {b : Job} (hb : .submit b ∈ n.store.log) :
    b.id ≠ mintId n.self n.boot n.nextJobSeq := by
  intro heq
  rcases h.ids b hb with ⟨boot, seq, hmem, hseq, hnext, hid⟩
  rcases mintId_inj hseq hlt (hid.symm.trans heq) with ⟨_, hmod, hseq'⟩
  have hboot : boot = n.boot :=
    List.inj_on_of_nodup_map hboots hmem List.mem_cons_self hmod
  exact absurd (hnext hboot) (by omega)

theorem mints : Always K d (fun w => ∀ e, Mints (w e)) := by
  refine always_of_node (Q := fun _ n => Mints n) (fun _ h => h)
    (fun e => ⟨by simp [Deployment.init, Store.log], by simp [Deployment.init, Store.log],
      by simp [Deployment.init, Store.log]⟩) (fun {c e t m m'} hin _ hm _ hmove => ?_)
  have hwire := wire.inside hin e
  rw [Function.update_self] at hwire
  have hself := hmove.self_eq.1
  -- Records that were there keep their reading as long as the counter does not go back.
  have hkeep : (m'.boot = m.boot ∧ m'.boots = m.boots) → m.nextJobSeq ≤ m'.nextJobSeq →
      ∀ b, .submit b ∈ m.store.log → ∃ boot seq, boot ∈ m'.boot :: m'.boots ∧ seq < 2 ^ 32 ∧
        (boot = m'.boot → seq < m'.nextJobSeq) ∧ b.id = mintId m'.self boot seq := by
    intro hb hnext b hmem
    rcases hm.ids b hmem with ⟨boot, seq, hboot, hseq, hlt, hid⟩
    rw [hb.1, hb.2, hself]
    exact ⟨boot, seq, hboot, hseq, fun h => (hlt h).trans_le hnext, hid⟩
  cases hmove.mint_step with
  | other hnext hb hlog =>
    have hmem : ∀ b, .submit b ∈ m'.store.log → .submit b ∈ m.store.log := by
      intro b hb'
      rcases hlog with heq | ⟨r, _, hr, _, heq⟩
      · exact heq ▸ hb'
      · rw [heq, List.mem_append, List.mem_singleton] at hb'
        rcases hb' with hold | hnew
        · exact hold
        · exact absurd hnew.symm (hr b)
    exact ⟨fun b hb' => hkeep hb hnext.ge b (hmem b hb'),
      fun b hb' => hself ▸ hm.newborn b (hmem b hb'),
      fun b b' h h' => hm.unique b b' (hmem b h) (hmem b' h')⟩
  | mint p hw hnext hb hlog =>
    rcases hw.of_submit with ⟨p', cb, heq, hsub, _, _, hcount, _⟩
    have hlt : m.nextJobSeq < 2 ^ 32 := hcount ▸ hin.mint_lt hsub
    have hmem : ∀ b, .submit b ∈ m'.store.log → .submit b ∈ m.store.log ∨ b = m.mintJob p := by
      intro b hb'
      rcases hlog with heq | ⟨_, heq⟩
      · exact Or.inl (heq ▸ hb')
      · rw [heq, List.mem_append, List.mem_singleton] at hb'
        rcases hb' with hold | hnew
        · exact Or.inl hold
        · exact Or.inr (Record.submit.inj hnew)
    have hfresh : ∀ b, .submit b ∈ m.store.log → b.id ≠ (m.mintJob p).id :=
      fun b hb' => hm.fresh hwire.boots hlt hb'
    refine ⟨fun b hb' => ?_, fun b hb' => ?_, fun b b' h h' hid => ?_⟩
    · rcases hmem b hb' with hold | rfl
      · exact hkeep hb (by omega) b hold
      · rw [hb.1, hb.2, hself]
        exact ⟨m.boot, m.nextJobSeq, List.mem_cons_self, hlt, fun _ => by omega, rfl⟩
    · rcases hmem b hb' with hold | rfl
      · exact hself ▸ hm.newborn b hold
      · exact hself ▸ mintJob_newborn m p
    · rcases hmem b h with hold | rfl <;> rcases hmem b' h' with hold' | rfl
      · exact hm.unique b b' hold hold' hid
      · exact absurd hid (hfresh b hold)
      · exact absurd hid.symm (hfresh b' hold')
      · rfl
  | restart hboots hlog =>
    have hnodup := wire_boots hin hwire hmove
    refine ⟨fun b hb' => ?_, fun b hb' => hself ▸ hm.newborn b (hlog ▸ hb'),
      fun b b' h h' => hm.unique b b' (hlog ▸ h) (hlog ▸ h')⟩
    rcases hm.ids b (hlog ▸ hb') with ⟨boot, seq, hboot, hseq, _, hid⟩
    rw [hboots, hself]
    refine ⟨boot, seq, List.mem_cons_of_mem _ hboot, hseq, fun h => ?_, hid⟩
    rw [hboots, List.map_cons, List.nodup_cons] at hnodup
    exact absurd (List.mem_map.mpr ⟨boot, hboot, by rw [h]⟩) hnodup.1

/-! ### Copies -/

/-- A job some node logged the submit of. -/
def Minted (w : World) (b : Job) : Prop :=
  ∃ e, .submit b ∈ (w e).store.log

/-- A copy that goes back to a minted job: what was fixed at submit is as it
    was, the payload too unless the job is done, and the owner is pinned. -/
structure Born (w : World) (j : Job) : Prop where
  birth : ∃ b, Minted w b ∧ SameJob j b ∧ (j.state = .done ∨ j.body = b.body)
  owner : j.owner ∈ j.replicas.toList

/-- What holds of the copies a node logged, sent and showed. -/
structure Copies (w : World) (n : Node) : Prop where
  held : ∀ id j, Held n.store.log id j → Born w j ∧ n.self ∈ j.replicas.toList
  full : ∀ r ∈ n.store.log, ∀ j, r.full = some j → Born w j ∧ n.self ∈ j.replicas.toList
  sent : ∀ dst boot reqId j, .request n.self dst boot reqId (.replicate j) ∈ n.outbox →
    Held n.store.log j.id j ∧ dst ∈ j.replicas.toList ∧ dst ≠ n.self
  shown : ∀ dst boot reqId asked st j,
    .response n.self dst boot reqId asked st (.job j) ∈ n.outbox → Held n.store.log j.id j
  proper : Proper n.store.log

theorem Minted.grows {w w' : World} {b : Job} (h : w.Grows w') (hb : Minted w b) : Minted w' b := by
  rcases hb with ⟨e, he⟩
  exact ⟨e, (h e).log.subset he⟩

theorem Born.grows {w w' : World} {j : Job} (h : w.Grows w') (hj : Born w j) : Born w' j := by
  rcases hj with ⟨⟨b, hb, hsame, hbody⟩, howner⟩
  exact ⟨⟨b, hb.grows h, hsame, hbody⟩, howner⟩

theorem Copies.mono {w w' : World} {n : Node} (h : w.Grows w') (hn : Copies w n) : Copies w' n :=
  { hn with
    held := fun id j hj => ⟨(hn.held id j hj).1.grows h, (hn.held id j hj).2⟩
    full := fun r hr j hj => ⟨(hn.full r hr j hj).1.grows h, (hn.full r hr j hj).2⟩ }

/-- Minted jobs are told apart by their ids. -/
theorem minted_unique {w : World} (hnames : ∀ e, (w e).self = e) (hmints : ∀ e, Mints (w e))
    {b b' : Job} (hb : Minted w b) (hb' : Minted w b') (hid : b.id = b'.id) : b = b' := by
  rcases hb with ⟨e, he⟩
  rcases hb' with ⟨e', he'⟩
  rcases (hmints e).ids b he with ⟨boot, seq, _, hseq, _, hi⟩
  rcases (hmints e').ids b' he' with ⟨boot', seq', _, hseq', _, hi'⟩
  rw [hnames] at hi hi'
  have hee : e = e' := (mintId_inj hseq hseq' (hi.symm.trans (hid.trans hi'))).1
  subst hee
  exact (hmints e).unique b b' he he' hid

/-- An id about to be minted is new. -/
theorem Inside.mint_fresh {c : Cluster} {e : Endpoint} {t : Trigger} {m : Node} {p : SubmitParams}
    {cb : SubmitCb} (hin : Inside K d c e t m) (hsub : Submits t m p cb)
    (hcount : m.nextJobSeq = (c.node e).nextJobSeq) {b : Job}
    (hb : Minted (Function.update c.node e m) b) : b.id ≠ (m.mintJob p).id := by
  have hlt : m.nextJobSeq < 2 ^ 32 := hcount ▸ hin.mint_lt hsub
  rcases hb with ⟨x, hx⟩
  have hmint := mints.inside hin x
  by_cases hxe : x = e
  · subst hxe
    have hwire := wire.inside hin x
    rw [Function.update_self] at hx hmint hwire
    exact hmint.fresh hwire.boots hlt hx
  · intro heq
    have hname := (names.inside hin x).1
    rcases hmint.ids b hx with ⟨boot, seq, _, hseq, _, hid⟩
    rw [hname] at hid
    have hxm := (mintId_inj hseq hlt (hid.symm.trans heq)).1
    exact hxe (hxm.trans hin.self_eq)

/-- Two copies under one id agree on what was fixed at submit. -/
theorem Born.same_of {w : World} (hnames : ∀ e, (w e).self = e) (hmints : ∀ e, Mints (w e))
    {j j' : Job} (hj : Born w j) (hj' : Born w j') (hid : j.id = j'.id) : SameJob j j' := by
  rcases hj.birth with ⟨b, hb, hsame, _⟩
  rcases hj'.birth with ⟨b', hb', hsame', _⟩
  have hbb : b = b' := minted_unique hnames hmints hb hb'
    (hsame.id.symm.trans (hid.trans hsame'.id))
  exact hsame.trans (hbb ▸ hsame'.symm)

/-- A transition keeps a copy born, provided the owner stays pinned. -/
theorem Born.on {w : World} {l : Job} {r : Record} (h : Born w l) (hr : r.full = none)
    (howner : (r.on l).owner ∈ l.replicas.toList) : Born w (r.on l) := by
  have hsame := r.on_same l hr
  rcases h.birth with ⟨b, hb, hlb, hbody⟩
  refine ⟨⟨b, hb, hsame.trans hlb, ?_⟩, hsame.replicas ▸ howner⟩
  by_cases hdone : l.state = .done
  · exact Or.inl (r.on_done l hr hdone)
  · have hl := hbody.resolve_left hdone
    cases r with
    | submit | replicate => simp [Record.full] at hr
    | done id epoch leaseSeq =>
      simp only [Record.on]
      split
      · exact Or.inl rfl
      · exact Or.inr hl
    | lease | expire | deadLetter | takeover =>
      simp only [Record.on]
      split <;> exact Or.inr hl

section Step

variable {c : Cluster} {e : Endpoint} {t : Trigger} {m : Node}

/-- A record other than a full copy, written for any reason, keeps the owner
    pinned. -/
theorem owner_pinned (hin : Inside K d c e t m) {w : World} (hm : Copies w m) {r : Record}
    (hw : Writes t (c.node e) m r) (hr : r.full = none) {l : Job}
    (hl : m.find r.jobId = some l) : (r.on l).owner ∈ l.replicas.toList := by
  rcases hm.held _ l (Node.held_of_find hl) with ⟨hborn, hself⟩
  have hkeep : (∀ id epoch o, r ≠ .takeover id epoch o) → (r.on l).owner ∈ l.replicas.toList := by
    intro ht
    rw [r.on_owner l hr ht]
    exact hborn.owner
  have htake : ∀ id epoch o, r = .takeover id epoch o → o ∈ l.replicas.toList →
      (r.on l).owner ∈ l.replicas.toList := by
    rintro id epoch o rfl ho
    simp only [Record.on]
    split
    · exact ho
    · exact hborn.owner
  cases hw with
  | mint | adopt => simp [Record.full] at hr
  | serve ctx _ body serves =>
    cases serves with
    | copy => simp [Record.full] at hr
    | apply _ epoch l' trigger asked =>
      -- Only transitions are ever sent to be applied.
      have hsent := hin.asked trigger
      rw [Sent, asked] at hsent
      have hcom := (wire.reach hin.reach ctx.src).applies e ctx.boot ctx.reqId r
        (by rw [(names.reach hin.reach ctx.src).1]; exact hsent)
      rcases hcom with ⟨_, _, _, _, _, htrans⟩
      refine hkeep (fun id epoch o heq => ?_)
      subst heq
      cases htrans
    | claim id proposed l' _ _ found member =>
      rw [Record.jobId, found, Option.some.injEq] at hl
      exact htake id proposed ctx.src rfl (hl ▸ member)
  | begin_ id l' _ d found owned begins =>
    refine hkeep (fun id epoch o heq => ?_)
    subst heq
    cases begins.transition
  | unlease => exact hkeep (by simp)
  | seize id l' found => exact htake id _ m.self rfl hself
  | inherit id st l' _ ripe found owned inherits =>
    refine hkeep (fun id' epoch o heq => ?_)
    subst heq
    unfold Node.inherits at inherits
    split at inherits
    · simp at inherits
    · split at inherits
      · simp at inherits
      · split at inherits <;> simp at inherits

/-- A full copy written for any reason is born, and pinned to this node. -/
theorem full_born (hin : Inside K d c e t m) {w : World} (hgrow : World.Grows c.node w)
    (hnames : ∀ x, (w x).self = x) (hmints : ∀ x, Mints (w x))
    (hc : ∀ x, Copies c.node (c.node x)) (hm : Copies w m) {r : Record} {j : Job}
    (hw : Writes t (c.node e) m r) (hr : r.full = some j)
    (hnew : ∀ b, r = .submit b → Minted w b) :
    Born w j ∧ m.self ∈ j.replicas.toList := by
  have hself := hin.self_eq
  cases hw with
  | mint p =>
    simp only [Record.full, Option.some.injEq] at hr
    have hborn := mintJob_newborn m p
    subst hr
    have hfirst : m.self ∈ (m.mintJob p).replicas.toList := by
      rw [ReplicaSet.toList, hborn.first]
      exact List.mem_cons_self
    exact ⟨⟨⟨_, hnew _ rfl, .refl _, Or.inr rfl⟩, hfirst⟩, hfirst⟩
  | serve ctx _ body serves =>
    cases serves with
    | copy j' trigger asked =>
      simp only [Record.full, Option.some.injEq] at hr
      subst hr
      have hsent := hin.asked trigger
      rw [Sent, asked] at hsent
      rcases (hc ctx.src).sent e ctx.boot ctx.reqId j'
        (by rw [(names.reach hin.reach ctx.src).1]; exact hsent) with ⟨hheld, hdst, _⟩
      exact ⟨((hc ctx.src).held _ j' hheld).1.grows hgrow, hself ▸ hdst⟩
    | apply _ epoch l _ _ fence => cases r <;> simp [Record.full, Record.fence] at hr fence
    | claim => simp [Record.full] at hr
  | adopt id j' l answers same found =>
    simp only [Record.full, Option.some.injEq] at hr
    subst hr
    rcases hin.answered answers with ⟨src, asked, ⟨boot, reqId, hp⟩, _, _⟩
    have hheld := (hc src).shown e boot reqId asked kCreated j'
      (by rw [(names.reach hin.reach src).1]; exact hp)
    have hborn := ((hc src).held _ j' hheld).1.grows hgrow
    rcases hm.held _ l (Node.held_of_find found) with ⟨hl, hpin⟩
    have hid : j'.id = l.id := same.trans (m.store.find_id found).symm
    rw [(hborn.same_of hnames hmints hl hid).replicas]
    exact ⟨hborn, hpin⟩
  | begin_ id l _ d found owned begins =>
    rw [begins.transition.full] at hr
    cases hr
  | unlease | seize => simp [Record.full] at hr
  | inherit id st l _ ripe found owned inherits =>
    rw [(inherits_spec inherits).2] at hr
    cases hr

end Step

theorem copies : Always K d (fun w => ∀ e, Copies w (w e)) := by
  refine always_of_node (fun h => Copies.mono h) (fun e => ?_)
    (fun {c e t m m'} hin hc hm _ hmove => ?_)
  · refine ⟨fun id j hj => ?_, by simp [Deployment.init, Store.log], by simp [Deployment.init],
      by simp [Deployment.init], fun w b hw => ?_⟩
    · exact absurd hj (not_held_nil id j)
    · have hnil := List.prefix_nil.mp hw
      simp at hnil
  · have hafter := hin.tail hmove
    have hnames' : ∀ x, (Function.update c.node e m' x).self = x := fun x =>
      (names.inside hafter x).1
    have hmints' := mints.inside hafter
    have hm' := hm.mono (World.grows_update c.node e hmove.grows)
    have hself := hmove.self_eq.1
    have hmono : ∀ {id j}, Held m.store.log id j → Held m'.store.log id j :=
      fun h => h.mono hmove.log_prefix
    have hfull : ∀ r j, Writes t (c.node e) m r → r ∈ m'.store.log → r.full = some j →
        Born (Function.update c.node e m') j ∧ m.self ∈ j.replicas.toList := by
      intro r j hw hmem hr
      refine full_born hin hafter.grows hnames' hmints' hc hm' hw hr (fun b hb => ⟨e, ?_⟩)
      rw [Function.update_self]
      exact hb ▸ hmem
    -- Held copies: a full copy written is born, and a transition keeps a copy born.
    have hheld := hmove.held_rule
      (P := fun _ j => Born (Function.update c.node e m') j ∧ m.self ∈ j.replicas.toList) hm'.held
      (fun r j hw hmem hr _ => hfull r j hw hmem hr)
      (fun r l hw _ hr hfind _ => by
        rcases hm'.held _ l (Node.held_of_find hfind) with ⟨hborn, hpin⟩
        rw [(r.on_same l hr).replicas]
        exact ⟨hborn.on hr (owner_pinned hin hm hw hr hfind), hpin⟩)
    refine ⟨by rw [hself]; exact hheld, ?_, ?_, ?_, ?_⟩
    · intro r hr j hj
      rw [hself]
      rcases hmove.record_cases hr with hold | hw
      · exact hm'.full r hold j hj
      · exact hfull r j hw hr hj
    · intro dst boot reqId j hp
      rw [hself] at hp ⊢
      rcases hmove.request_cases hp with hold | ⟨_, _, _, k, asks, _⟩
      · rcases hm.sent dst boot reqId j hold with ⟨hh, hd, hne⟩
        exact ⟨hmono hh, hd, hne⟩
      · cases asks with
        | replicate id slot _ _ found peer =>
          rw [m.store.find_id found]
          exact ⟨hmono (Node.held_of_find found), (mem_peers peer).2.2, (mem_peers peer).1⟩
    · intro dst boot reqId asked st j hp
      rw [hself] at hp
      rcases hmove.response_cases hp with hold | hnew
      · exact hmono (hm.shown dst boot reqId asked st j hold)
      · cases hnew with
        | show_ ctx id _ trigger hasked found =>
          rw [m.store.find_id found]
          exact hmono (Node.held_of_find found)
        | serve ctx r _ serves => cases serves
    · -- A minted id is new, so a submit record never meets a copy.
      rcases hmove.log_cases with heq | ⟨r, hw, open_, heq⟩
      · rw [heq]
        exact hm.proper
      · rw [heq]
        refine hm.proper.snoc (fun b hb => ?_)
        rw [Store.find_log open_]
        subst hb
        rcases hw.of_submit with ⟨p, cb, rfl, hsub, _, _, hcount, _⟩
        by_contra hne
        rcases Option.ne_none_iff_exists'.mp hne with ⟨l, hl⟩
        rcases (hm.held _ l (Node.held_of_find hl)).1.birth with ⟨b', hb', hsame, _⟩
        exact hin.mint_fresh hsub hcount hb' (hsame.id.symm.trans (m.store.find_id hl))

/-! ### The facts every later module starts from -/

/-- Names, wires, minted ids and copies are as they should be. -/
structure Sane (w : World) : Prop where
  names : ∀ e, (w e).self = e
  wire : ∀ e, Wire w (w e)
  mints : ∀ e, Mints (w e)
  copies : ∀ e, Copies w (w e)

theorem sane : Always K d Sane :=
  ⟨fun h => ⟨fun e => (names.reach h e).1, wire.reach h, mints.reach h, copies.reach h⟩,
    fun h => ⟨fun e => (names.inside h e).1, wire.inside h, mints.inside h, copies.inside h⟩⟩

namespace Sane

variable {w : World} {e e' : Endpoint} {id : JobId} {j j' : Job}

theorem held (h : Sane w) (hj : Held (w e).store.log id j) : Born w j ∧ e ∈ j.replicas.toList := by
  have hc := (h.copies e).held id j hj
  rwa [h.names] at hc

theorem find (h : Sane w) (hj : (w e).find id = some j) : Born w j ∧ e ∈ j.replicas.toList :=
  h.held (Node.held_of_find hj)

/-- Two copies under one id agree on what was fixed at submit. -/
theorem same (h : Sane w) (hj : Held (w e).store.log id j) (hj' : Held (w e').store.log id j') :
    SameJob j j' :=
  (h.held hj).1.same_of h.names h.mints (h.held hj').1 (hj.job_id.trans hj'.job_id.symm)

/-- An apply request carries a transition its sender has logged. -/
theorem applied (h : Sane w) {dst : Endpoint} {ctx : ReqCtx} {r : Record} (hs : Sent w dst ctx)
    (ha : ctx.asked = .apply r) : Committed (w ctx.src) r.jobId r := by
  rw [Sent, ha] at hs
  exact (h.wire ctx.src).applies dst ctx.boot ctx.reqId r (by rw [h.names]; exact hs)

/-- A full copy in flight was held by its sender. -/
theorem replicated (h : Sane w) {dst : Endpoint} {ctx : ReqCtx} (hs : Sent w dst ctx)
    (ha : ctx.asked = .replicate j) :
    Held (w ctx.src).store.log j.id j ∧ dst ∈ j.replicas.toList ∧ dst ≠ ctx.src := by
  rw [Sent, ha] at hs
  have hsent := (h.copies ctx.src).sent dst ctx.boot ctx.reqId j (by rw [h.names]; exact hs)
  rwa [h.names] at hsent

/-- A copy shown was held by whoever showed it. -/
theorem shown (h : Sane w) {src dst : Endpoint} {asked : Request} {st : Status}
    (hr : Replied w src dst asked st (.job j)) : Held (w src).store.log j.id j := by
  rcases hr with ⟨boot, reqId, hp⟩
  exact (h.copies src).shown dst boot reqId asked st j (by rw [h.names]; exact hp)

end Sane

theorem Committed.logged {n : Node} {id : JobId} {r : Record} (h : Committed n id r) :
    r ∈ n.store.log := by
  rcases h with ⟨v, l, hv, _⟩
  exact n.store.wal_prefix_log.subset
    (hv.subset (List.mem_append_right _ (List.mem_singleton.mpr rfl)))

section Serving

variable {c : Cluster} {e : Endpoint} {t : Trigger} {m : Node} {ctx : ReqCtx} {r : Record}
  {body : Reply}

/-- What a node appends for others is asked for by others. -/
theorem Inside.served_by (hin : Inside K d c e t m) (h : Serves t (c.node e) m ctx r body) :
    ctx.src ≠ e := by
  cases h with
  | copy j trigger asked =>
    exact ((sane.reach hin.reach).replicated (hin.asked trigger) asked).2.2.symm
  | apply _ _ _ trigger asked =>
    rcases hin.expected trigger with ⟨k, hexp⟩
    rw [asked] at hexp
    cases hexp with
    | apply _ _ _ other => exact other.symm
  | claim _ _ _ trigger asked =>
    rcases hin.expected trigger with ⟨k, hexp⟩
    rw [asked] at hexp
    cases hexp with
    | claim _ _ other => exact other.symm

/-- A record that is applied for another node was sent by the owner of the copy. -/
theorem Inside.apply_sender (hin : Inside K d c e t m) {l : Job} (trigger : t.ctx = some ctx)
    (asked : ctx.asked = .apply r) (owner : ctx.src = l.owner ∨ r.isTakeover = true) :
    l.owner = ctx.src := by
  rcases (sane.reach hin.reach).applied (hin.asked trigger) asked with ⟨_, _, _, _, _, htrans⟩
  exact (owner.resolve_right (by simp [htrans.not_takeover])).symm

/-- What a node appends for others, full copies apart, leaves the job with another owner. -/
theorem Inside.served_owner (hin : Inside K d c e t m) (h : Serves t (c.node e) m ctx r body)
    {j : Job}
    (hj : r.effect (m.find r.jobId) = some j) : (∃ j', r = .replicate j') ∨ j.owner ≠ e := by
  have hne := hin.served_by h
  cases h with
  | copy j' => exact Or.inl ⟨j', rfl⟩
  | apply _ epoch l trigger asked fence found unfenced owner =>
    -- Only the owner's transitions are sent to be applied, and they leave the owner.
    rcases (sane.reach hin.reach).applied (hin.asked trigger) asked with ⟨_, _, _, _, _, htrans⟩
    rw [found, Record.effect, Option.some.injEq] at hj
    rw [← hj, r.on_owner_of_not_takeover l htrans.full htrans.not_takeover,
      hin.apply_sender trigger asked owner]
    exact Or.inr hne
  | claim id proposed l trigger asked found member higher =>
    change (Record.takeover id proposed ctx.src).effect (m.find id) = some j at hj
    rw [found, Record.effect, Option.some.injEq, Record.on, if_pos higher] at hj
    rw [← hj]
    exact Or.inr hne

/-- A takeover being written is this node's own, or the one a claim asks for. -/
theorem Inside.taken_cases (hin : Inside K d c e t m) {id : JobId} {epoch : Nat} {o : Endpoint}
    (hw : Writes t (c.node e) m (.takeover id epoch o)) :
    (o = m.self ∧ m.draining = false) ∨
      ∃ ctx l, t.ctx = some ctx ∧ ctx.asked = .claim id epoch o ∧ o = ctx.src ∧ o ≠ e ∧
        m.find id = some l ∧ l.epoch < epoch ∧ m.store = (c.node e).store := by
  cases hw with
  | seize id' l found other active unclaimed trigger admitting => exact Or.inl ⟨rfl, admitting⟩
  | serve ctx _ body serves =>
    have hne := hin.served_by serves
    cases serves with
    | claim id' proposed l trigger asked found member higher first =>
      exact Or.inr ⟨ctx, l, trigger, asked, rfl, hne, found, higher, first⟩
    | apply _ epoch' l trigger asked =>
      -- Only an owner's transitions are ever sent to be applied.
      rcases (sane.reach hin.reach).applied (hin.asked trigger) asked with ⟨_, _, _, _, _, htrans⟩
      cases htrans
  | begin_ id' l _ d' found owned begins => cases begins.transition
  | inherit id' st l _ ripe found owned inherits => cases (inherits_fence inherits).2

end Serving

/-- A job being minted has no copy at all. -/
theorem Inside.mint_unheld {c : Cluster} {e : Endpoint} {t : Trigger} {m : Node} {b j : Job}
    (hin : Inside K d c e t m) (hw : Writes t (c.node e) m (.submit b)) :
    ¬ Held m.store.log b.id j := by
  intro hj
  rcases hw.of_submit with ⟨p, cb, rfl, hsub, _, _, hcount, _⟩
  have hheld : Held (Function.update c.node e m e).store.log (m.mintJob p).id j := by
    rw [Function.update_self]
    exact hj
  rcases ((sane.inside hin).held hheld).1.birth with ⟨b, hb, hsame, _⟩
  exact hin.mint_fresh hsub hcount hb (hsame.id.symm.trans hj.job_id)

/-- A full copy being written for another node was sent by it, or shown by it in
    a resync. -/
theorem Inside.brought {c : Cluster} {e : Endpoint} {t : Trigger} {m : Node} {j : Job}
    (hin : Inside K d c e t m) (hw : Writes t (c.node e) m (.replicate j)) :
    ∃ src, src ≠ e ∧ ((∃ boot reqId, Sent c.node e { src, boot, reqId, asked := .replicate j }) ∨
      Replied c.node src e (.resync j.id) kCreated (.job j)) := by
  cases hw with
  | serve ctx _ body serves =>
    cases serves with
    | copy j' trigger asked =>
      have hsent := hin.asked trigger
      have hne := ((sane.reach hin.reach).replicated hsent asked).2.2
      rcases ctx with ⟨src, boot, reqId, asked'⟩
      change asked' = .replicate j at asked
      subst asked
      exact ⟨src, hne.symm, Or.inl ⟨boot, reqId, hsent⟩⟩
    | apply _ epoch l _ _ fence => cases fence
  | adopt id j' l answers same =>
    rcases hin.shown_by answers with ⟨src, hne, hrep⟩
    exact ⟨src, hne, Or.inr (same ▸ hrep)⟩
  | begin_ id l _ d₀ found owned begins =>
    exact absurd begins.transition.full (by simp [Record.full])
  | inherit id st l _ ripe found owned inherits =>
    exact absurd (inherits_spec inherits).2 (by simp [Record.full])

/-- A full copy being written is the one minted just now, or some other node has
    held it. -/
theorem Inside.full_origin {c : Cluster} {e : Endpoint} {t : Trigger} {m : Node}
    {r : Record} {j : Job}
    (hin : Inside K d c e t m) (hw : Writes t (c.node e) m r) (hr : r.full = some j) :
    (∃ p, j = m.mintJob p ∧ r = .submit j) ∨
      (r = .replicate j ∧ ∃ src, src ≠ e ∧ Held (c.node src).store.log j.id j) := by
  have hsane := sane.reach hin.reach
  cases r with
  | submit b =>
    simp only [Record.full, Option.some.injEq] at hr
    rcases hw.of_submit with ⟨p, _, hb, _⟩
    exact Or.inl ⟨p, hr ▸ hb, by rw [hr]⟩
  | replicate j' =>
    simp only [Record.full, Option.some.injEq] at hr
    subst hr
    rcases hin.brought hw with ⟨src, hne, ⟨boot, reqId, hsent⟩ | hrep⟩
    · exact Or.inr ⟨rfl, src, hne, (hsane.replicated hsent rfl).1⟩
    · exact Or.inr ⟨rfl, src, hne, hsane.shown hrep⟩
  | lease | done | expire | deadLetter | takeover => cases hr

end Invariants

end Tautq
