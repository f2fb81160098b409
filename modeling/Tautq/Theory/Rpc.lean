import Tautq.Theory.Reach

/-!
# Requests and Responses

The RPC layer matches a response to a call by the request id alone, and
request ids start over with every incarnation. This module says how far that
can go wrong. Every response answers a request that was sent, and a response
to the current incarnation finishes the very call it answers. A response to an
earlier incarnation can still arrive, but only to a method that is answered
late, a forwarded submit or a forwarded ack.

## Main definitions

* `Expects`: The callback that waits for a request's reply.
* `Wire`: What holds of a node's outbox and its pending calls.
* `Matched`: The condition that a response that finishes a call is to the incarnation that asked.

## Theorems

* `names`: Nodes keep their names and configurations.
* `wire`: `Wire` holds of every node at all times.
* `Sends.confirms`: A copy or a record is confirmed only by storing it.
* `Inside.asked`: A request being handled was sent.
* `Inside.finished`, `Inside.answered`: What a response that finishes a call
  answers.
* `Inside.carried`, `Inside.applied`: What the reply to an apply request is about.
-/

namespace Tautq

open Status Cluster

/-- The callback that waits at `me` for the reply to a request to `dst`. -/
inductive Expects (me dst : Endpoint) : Request → Cont → Prop where
  | fwdSubmit (p : SubmitParams) : Expects me dst (.fwdSubmit p) (.fwdSubmit p.idemKey)
  | replicate (j : Job) (slot : Nat) (peer : (slot, dst) ∈ j.peers me) :
      Expects me dst (.replicate j) (.replicate j.id slot)
  | apply (r : Record) (slot q : Nat) (other : dst ≠ me) :
      Expects me dst (.apply r) (.apply r.jobId slot dst r q)
  | fwdAck (id : JobId) (epoch leaseSeq : Nat) (success : Bool) :
      Expects me dst (.fwdAck id epoch leaseSeq success) .fwdAck
  | claim (id : JobId) (proposed : Nat) (other : dst ≠ me) :
      Expects me dst (.claim id proposed me) (.claim id dst)
  | resync (id : JobId) (other : dst ≠ me) : Expects me dst (.resync id) (.resync id)
  | drainHandoff (id : JobId) : Expects me dst (.drainHandoff id) .drainHandoff
  | fwdStatus (id : JobId) (rest : List Endpoint) (best : Option Job) :
      Expects me dst (.fwdStatus id) (.fwdStatus id rest best)

theorem mem_peers {j : Job} {me : Endpoint} {s : Nat × Endpoint} (h : s ∈ j.peers me) :
    s.2 ≠ me ∧ s.2 ≠ {} ∧ s.2 ∈ j.replicas.toList := by
  have hf := List.mem_filter.mp h
  have hcond : s.2 ≠ {} ∧ s.2 ≠ me := by simpa using hf.2
  refine ⟨hcond.2, hcond.1, ?_⟩
  have hs := hf.1
  simp only [ReplicaSet.slots, List.mem_cons, List.not_mem_nil, or_false] at hs
  rcases hs with rfl | rfl | rfl <;> simp [ReplicaSet.toList]

theorem Asks.expects {t : Trigger} {m : Node} {dst : Endpoint} {body : Request} {k : Cont}
    (h : Asks t m dst body k) : Expects m.self dst body k := by
  cases h with
  | fwdSubmit p => exact .fwdSubmit p
  | replicate id slot _ j found peer =>
    rw [← m.store.find_id found]
    exact .replicate j slot peer
  | apply id slot _ j r q s found peer committed =>
    rcases committed with ⟨_, _, _, _, _, htrans⟩
    rw [← htrans.jobId]
    exact .apply r slot q (mem_peers peer).1
  | fwdAck id epoch leaseSeq success => exact .fwdAck id epoch leaseSeq success
  | claim id _ slot j st standing found peer => exact .claim id st.proposed (mem_peers peer).1
  | resync id _ slot j found peer => exact .resync id (mem_peers peer).1
  | drainHandoff id => exact .drainHandoff id
  | fwdStatus id _ rest best => exact .fwdStatus id rest best

/-- A request is in its sender's outbox. -/
def Sent (w : World) (dst : Endpoint) (ctx : ReqCtx) : Prop :=
  .request ctx.src dst ctx.boot ctx.reqId ctx.asked ∈ (w ctx.src).outbox

/-- What holds of a node's outbox, its pending calls and the request contexts it
    keeps. -/
structure Wire (w : World) (n : Node) : Prop where
  src : ∀ p ∈ n.outbox, p.src = n.self
  boots : ((n.boot :: n.boots).map (· % 2 ^ 32)).Nodup
  issued : ∀ dst boot reqId body, .request n.self dst boot reqId body ∈ n.outbox →
    boot ∈ n.boot :: n.boots ∧ (boot = n.boot → reqId < n.nextReq)
  unique : ∀ dst dst' boot reqId body body', .request n.self dst boot reqId body ∈ n.outbox →
    .request n.self dst' boot reqId body' ∈ n.outbox → dst = dst' ∧ body = body'
  asks : ∀ dst boot reqId body, .request n.self dst boot reqId body ∈ n.outbox →
    ∃ k, Expects n.self dst body k
  calls : ∀ reqId call, n.calls.lookup reqId = some call → ∃ dst body,
    .request n.self dst n.boot reqId body ∈ n.outbox ∧ Expects n.self dst body call.cont
  replies : ∀ dst boot reqId asked st body,
    .response n.self dst boot reqId asked st body ∈ n.outbox →
      Sent w n.self { src := dst, boot, reqId, asked }
  submits : ∀ id ps ctx, n.pendingSubmits.lookup id = some ps → ps.cb = .reply ctx →
    (∃ p, ctx.asked = .fwdSubmit p) ∧ Sent w n.self ctx
  acks : ∀ s ∈ n.qstates, ∀ id ctx, s.done = .ack id (.reply ctx) →
    (∃ epoch leaseSeq success, ctx.asked = .fwdAck id epoch leaseSeq success) ∧ Sent w n.self ctx
  applies : ∀ dst boot reqId r, .request n.self dst boot reqId (.apply r) ∈ n.outbox →
    Committed n r.jobId r
  commits : ∀ reqId call id slot member r q, n.calls.lookup reqId = some call →
    call.cont = .apply id slot member r q → ∃ s, n.qstates[q]? = some s ∧ s.done.carries r

theorem Sent.grows {w w' : World} {dst : Endpoint} {ctx : ReqCtx} (h : w.Grows w')
    (hs : Sent w dst ctx) : Sent w' dst ctx :=
  (h ctx.src).outbox.subset hs

section Invariant

variable {K : Cond} {d : Deployment}

/-- Nodes keep their names and configurations. -/
theorem names : Always K d (fun w => ∀ e, (w e).self = e ∧ (w e).cfg = d.cfg e) := by
  refine always_of_moves (fun e => ⟨rfl, rfl⟩) (fun {c e t m m'} _ _ hmid hmove x => ?_)
  have hx := hmid x
  by_cases hxe : x = e
  · subst hxe
    rw [Function.update_self] at hx ⊢
    exact ⟨hmove.self_eq.1.trans hx.1, hmove.self_eq.2.trans hx.2⟩
  · rw [Function.update_of_ne hxe] at hx ⊢
    exact hx

/-- A node outside the deployment never does anything. -/
theorem idle_of_not_mem {c : Cluster} {e : Endpoint} (h : Reach K d c) (he : e ∉ d.members) :
    c.node e = d.init.node e := by
  have halways : Always K d (fun w => ∀ e, e ∉ d.members → w e = d.init.node e) := by
    refine always_of_moves (fun _ _ => rfl) (fun {c e t m m'} hin _ hmid hmove x hx => ?_)
    have hne : x ≠ e := fun h => hx (h ▸ hin.member)
    have hold := hmid x hx
    rw [Function.update_of_ne hne] at hold ⊢
    exact hold
  exact halways.reach h e he

theorem Inside.self_eq {c : Cluster} {e : Endpoint} {t : Trigger} {m : Node}
    (h : Inside K d c e t m) : m.self = e := by
  have hn := (names.inside h e).1
  rwa [Function.update_self] at hn

/-- A request being handled is in its sender's outbox. -/
theorem Inside.asked_of {c : Cluster} {e : Endpoint} {t : Trigger} {m : Node} {ctx : ReqCtx}
    (h : Inside K d c e t m) (hsrc : ∀ x, ∀ p ∈ (c.node x).outbox, p.src = (c.node x).self)
    (ht : t.ctx = some ctx) : Sent c.node e ctx := by
  rcases Trigger.eq_of_ctx ht with ⟨dst, rfl⟩
  rcases h.delivered _ rfl with ⟨hdst, x, hx⟩
  have hname : ctx.src = x := (hsrc x _ hx).trans (names.reach h.reach x).1
  rw [Sent, ← hdst]
  exact hname ▸ hx

theorem Submits.ctx {t : Trigger} {m : Node} {p : SubmitParams} {ctx : ReqCtx}
    (h : Submits t m p (.reply ctx)) : t.ctx = some ctx ∧ ctx.asked = .fwdSubmit p := by
  cases h with
  | forwarded _ trigger asked => exact ⟨trigger, asked⟩

theorem Acks.ctx {t : Trigger} {id : JobId} {epoch leaseSeq : Nat} {success : Bool} {ctx : ReqCtx}
    (h : Acks t id epoch leaseSeq success (.reply ctx)) :
    t.ctx = some ctx ∧ ctx.asked = .fwdAck id epoch leaseSeq success := by
  cases h with
  | forwarded _ trigger asked => exact ⟨trigger, asked⟩

theorem Begins.acks {t : Trigger} {m₀ m : Node} {id id' : JobId} {l : Job} {r : Record} {cb : AckCb}
    (h : Begins t m₀ m id l r (.ack id' cb)) :
    id' = id ∧ ∃ epoch leaseSeq, Acks t id epoch leaseSeq true cb := by
  cases h with
  | done epoch leaseSeq _ acks => exact ⟨rfl, epoch, leaseSeq, acks⟩

theorem Serves.ctx {t : Trigger} {m₀ m : Node} {ctx : ReqCtx} {r : Record} {body : Reply}
    (h : Serves t m₀ m ctx r body) : t.ctx = some ctx := by
  cases h with
  | copy _ trigger | apply _ _ _ trigger | claim _ _ _ trigger => exact trigger

/-- Whoever a move answers had asked. -/
theorem Sends.answers {w : World} {t : Trigger} {m₀ m m' : Node} {src dst : Endpoint}
    {boot reqId : Nat} {asked : Request} {st : Status} {body : Reply}
    (h : Sends t m₀ m m' (.response src dst boot reqId asked st body)) (hm : Wire w m)
    (ht : ∀ ctx, t.ctx = some ctx → Sent w m.self ctx) :
    Sent w m.self { src := dst, boot, reqId, asked } := by
  cases h with
  | plain ctx _ trigger => exact ht ctx trigger
  | show_ ctx _ _ trigger => exact ht ctx trigger
  | regrant ctx _ _ trigger => exact ht ctx trigger
  | serve ctx _ _ serves => exact ht ctx serves.ctx
  | submit ctx _ id why =>
    generalize hcb : SubmitCb.reply ctx = cb at why
    cases why with
    | alone p _ submits => exact ht ctx (hcb ▸ submits).ctx.1
    | duplicate p _ j submits => exact ht ctx (hcb ▸ submits).ctx.1
    | refuse p _ submits => exact ht ctx (hcb ▸ submits).ctx.1
    | answered _ ps _ found => exact (hm.submits _ ps ctx found hcb.symm).2
  | ack ctx id success _ why =>
    generalize hcb : AckCb.reply ctx = cb at why
    cases why with
    | alone _ l r _ found owned begins =>
      rcases begins.acks with ⟨_, epoch, leaseSeq, acks⟩
      exact ht ctx (hcb ▸ acks).ctx.1
    | quorum id₀ _ slot member r q s body _ answers state pending isAck =>
      exact (hm.acks s (List.mem_of_getElem? state) _ ctx (isAck.trans (by rw [hcb]))).2
    | done _ j epoch leaseSeq _ _ acks => exact ht ctx (hcb ▸ acks).ctx.1
    | plain _ _ _ _ source =>
      rcases source with ⟨epoch, leaseSeq, success', acks⟩ | ⟨s, hs, hdone⟩
      · exact ht ctx (hcb ▸ acks).ctx.1
      · exact (hm.acks s hs _ ctx (hdone.trans (by rw [hcb]))).2

theorem Committed.grows {m m' : Node} {id : JobId} {r : Record} (h : Grows m m')
    (hc : Committed m id r) : Committed m' id r := by
  rcases hc with ⟨w, l, hw, hl, ho, ht⟩
  exact ⟨w, l, hw.trans h.wal, hl, ho.trans h.self.symm, ht⟩

/-- `Wire` only looks at what the other nodes never take back. -/
theorem Wire.mono {w w' : World} {n : Node} (h : w.Grows w') (hn : Wire w n) : Wire w' n :=
  { hn with
    replies := fun dst boot reqId asked st body hp =>
      (hn.replies dst boot reqId asked st body hp).grows h
    submits := fun id ps ctx hps hcb =>
      ⟨(hn.submits id ps ctx hps hcb).1, (hn.submits id ps ctx hps hcb).2.grows h⟩
    acks := fun s hs id ctx hd => ⟨(hn.acks s hs id ctx hd).1, (hn.acks s hs id ctx hd).2.grows h⟩ }

section Step

variable {c : Cluster} {e : Endpoint} {t : Trigger} {m m' : Node}

/-- A restart takes a fresh incarnation. -/
theorem wire_boots (hin : Inside K d c e t m) {w : World} (hm : Wire w m)
    (hmove : Move t (c.node e) m m') : ((m'.boot :: m'.boots).map (· % 2 ^ 32)).Nodup := by
  rcases hmove.boots_cases with ⟨hb, hbs⟩ | ⟨boot, ht, ⟨hb₀, hbs₀⟩, hb, hbs⟩
  · rw [hb, hbs]
    exact hm.boots
  · have hadm := hin.admitted
    rw [ht, Node.admits, decide_eq_true_eq, ← hb₀, ← hbs₀] at hadm
    rw [hb, hbs, List.map_cons, List.nodup_cons]
    exact ⟨hadm, hm.boots⟩

/-- Requests carry the incarnation that sent them and a number it has used. -/
theorem wire_issued (hin : Inside K d c e t m) {w : World} (hm : Wire w m)
    (hmove : Move t (c.node e) m m') (dst : Endpoint) (boot reqId : Nat) (body : Request)
    (hp : .request m'.self dst boot reqId body ∈ m'.outbox) :
    boot ∈ m'.boot :: m'.boots ∧ (boot = m'.boot → reqId < m'.nextReq) := by
  have hself := hmove.self_eq.1
  rw [hself] at hp
  rcases hmove.request_cases hp with hold | ⟨_, hb, hr, k, _, hafter⟩
  · rcases hm.issued dst boot reqId body hold with ⟨hmem, hlt⟩
    refine ⟨hmove.grows.boots.subset hmem, fun hbm => ?_⟩
    cases hmove.call_step with
    | same _ hnext hboot => exact (hlt (hbm.trans hboot)).trans_le hnext
    | ask dst' body' k' _ hafter =>
      have hb : boot = m.boot := by rw [hbm, hafter]; rfl
      rw [hafter]
      exact (hlt hb).trans (Nat.lt_succ_self _)
    | finish rid hafter =>
      have hb : boot = m.boot := by rw [hbm, hafter]
      rw [hafter]
      exact hlt hb
    | restart hboots =>
      -- The new incarnation is none of the earlier ones.
      have hnodup := wire_boots hin hm hmove
      rw [hboots, List.map_cons, List.nodup_cons] at hnodup
      exact absurd (List.mem_map.mpr ⟨boot, hmem, by rw [hbm]⟩) hnodup.1
  · rw [hafter, hb, hr]
    exact ⟨List.mem_cons_self, fun _ => Nat.lt_succ_self _⟩

/-- The reply to a call in flight is told apart by its number. -/
theorem wire_unique {w : World} (hm : Wire w m) (hmove : Move t (c.node e) m m')
    (dst dst' : Endpoint) (boot reqId : Nat) (body body' : Request)
    (hp : .request m'.self dst boot reqId body ∈ m'.outbox)
    (hp' : .request m'.self dst' boot reqId body' ∈ m'.outbox) : dst = dst' ∧ body = body' := by
  rw [hmove.self_eq.1] at hp hp'
  rcases hmove.request_cases hp with hold | ⟨_, hb, hr, k, _, hafter⟩ <;>
    rcases hmove.request_cases hp' with hold' | ⟨_, hb', hr', k', _, hafter'⟩
  · exact hm.unique dst dst' boot reqId body body' hold hold'
  · exact absurd ((hm.issued dst boot reqId body hold).2 hb') (by omega)
  · exact absurd ((hm.issued dst' boot reqId body' hold').2 hb) (by omega)
  · have hout := congrArg Node.outbox (hafter.symm.trans hafter')
    simpa [Node.sent] using hout

theorem wire_calls {w : World} (hm : Wire w m) (hmove : Move t (c.node e) m m') (reqId : Nat)
    (call : PendingCall) (hcall : m'.calls.lookup reqId = some call) :
    ∃ dst body, .request m'.self dst m'.boot reqId body ∈ m'.outbox ∧
      Expects m'.self dst body call.cont := by
  have hself := hmove.self_eq.1
  have hkeep : m'.boot = m.boot → m.calls.lookup reqId = some call →
      ∃ dst body, .request m'.self dst m'.boot reqId body ∈ m'.outbox ∧
        Expects m'.self dst body call.cont := by
    intro hboot hold
    rcases hm.calls reqId call hold with ⟨dst, body, hp, hexp⟩
    rw [hself, hboot]
    exact ⟨dst, body, hmove.grows.outbox.subset hp, hexp⟩
  rcases hmove.call_cases hcall with ⟨hboot, hold | ⟨dst, body, rfl, asks, hafter⟩⟩
  · exact hkeep hboot hold
  · rw [hafter]
    exact ⟨dst, body, List.mem_append_right _ (List.mem_singleton.mpr rfl), asks.expects⟩

theorem wire_submits {w' : World} (hm : Wire w' m) (hmove : Move t (c.node e) m m')
    (ht : ∀ ctx, t.ctx = some ctx → Sent w' m.self ctx) (id : JobId) (ps : PendingSubmit)
    (ctx : ReqCtx) (hps : m'.pendingSubmits.lookup id = some ps) (hcb : ps.cb = .reply ctx) :
    (∃ p, ctx.asked = .fwdSubmit p) ∧ Sent w' m.self ctx := by
  cases hmove.waits hps with
  | kept found => exact hm.submits id ps ctx found hcb
  | mint p submits =>
    have hctx := (hcb ▸ submits).ctx
    exact ⟨⟨p, hctx.2⟩, ht ctx hctx.1⟩
  | count ps' found cb => exact hm.submits id ps' ctx found (cb ▸ hcb)

theorem wire_acks {w' : World} (hm : Wire w' m) (hmove : Move t (c.node e) m m')
    (ht : ∀ ctx, t.ctx = some ctx → Sent w' m.self ctx) (s : QState) (hs : s ∈ m'.qstates)
    (id : JobId) (ctx : ReqCtx) (hd : s.done = .ack id (.reply ctx)) :
    (∃ epoch leaseSeq success, ctx.asked = .fwdAck id epoch leaseSeq success) ∧
      Sent w' m.self ctx := by
  rcases List.mem_iff_getElem?.mp hs with ⟨q, hq⟩
  rcases hmove.commit_cases hq with ⟨s₀, hs₀, hdone, _⟩ | ⟨id', l, r, _, _, begins, _⟩
  · exact hm.acks s₀ (List.mem_of_getElem? hs₀) id ctx (hdone.symm.trans hd)
  · rcases (hd ▸ begins).acks with ⟨hid, epoch, leaseSeq, acks⟩
    exact ⟨⟨epoch, leaseSeq, true, hid ▸ acks.ctx.2⟩, ht ctx acks.ctx.1⟩

theorem wire_commits {w : World} (hm : Wire w m) (hmove : Move t (c.node e) m m') (reqId : Nat)
    (call : PendingCall) (id : JobId) (slot : Nat) (member : Endpoint) (r : Record) (q : Nat)
    (hcall : m'.calls.lookup reqId = some call) (hk : call.cont = .apply id slot member r q) :
    ∃ s, m'.qstates[q]? = some s ∧ s.done.carries r := by
  -- The counters outlive the calls, so an old call's counters are where they were.
  have hkeep : (∃ s, m.qstates[q]? = some s ∧ s.done.carries r) →
      ∃ s, m'.qstates[q]? = some s ∧ s.done.carries r := by
    rintro ⟨s, hs, hcar⟩
    have hlt := (List.getElem?_eq_some_iff.mp hs).1
    cases hmove.quorum_step with
    | same hqs => exact ⟨s, hqs ▸ hs, hcar⟩
    | begin_ _ _ _ _ _ _ _ _ _ _ hqs =>
      refine ⟨s, ?_, hcar⟩
      rw [hqs, List.getElem?_append_left hlt]
      exact hs
    | count q' s₀ s' state hdone _ hqs =>
      by_cases hq : q' = q
      · subst hq
        refine ⟨s', ?_, ?_⟩
        · rw [hqs, List.getElem?_set_self hlt]
        · rw [hdone, ← Option.some.inj (hs.symm.trans state)]
          exact hcar
      · refine ⟨s, ?_, hcar⟩
        rw [hqs, List.getElem?_set_ne hq]
        exact hs
    | restart _ hcalls =>
      rw [hcalls] at hcall
      cases hcall
  rcases hmove.call_cases hcall with ⟨_, hold | ⟨dst, body, _, asks, hafter⟩⟩
  · exact hkeep (hm.commits reqId call id slot member r q hold hk)
  · rw [hk] at asks
    rw [hafter]
    cases asks with
    | apply _ _ _ j _ _ s _ _ _ state carries => exact ⟨s, state, carries⟩

end Step

/-- Every node keeps its wires straight. -/
theorem wire : Always K d (fun w => ∀ e, Wire w (w e)) := by
  refine always_of_node (fun h => Wire.mono h) (fun e => ?_)
    (fun {c e t m m'} hin hc hm hgrow hmove => ?_)
  · constructor <;> simp [Deployment.init]
  · have hself := hmove.self_eq.1
    have hw' := hm.mono hgrow
    have ht : ∀ ctx, t.ctx = some ctx → Sent (Function.update c.node e m') m.self ctx := by
      intro ctx hctx
      rw [hin.self_eq]
      exact (hin.asked_of (fun x => (hc x).src) hctx).grows (hin.tail hmove).grows
    refine ⟨?_, wire_boots hin hm hmove, wire_issued hin hm hmove, wire_unique hm hmove, ?_,
      wire_calls hm hmove, ?_, ?_, ?_, ?_, wire_commits hm hmove⟩
    · intro p hp
      rcases hmove.adds.outbox with heq | ⟨p', hp', heq⟩
      · rw [heq] at hp
        exact (hm.src p hp).trans hself.symm
      · rw [heq, List.mem_append, List.mem_singleton] at hp
        rcases hp with hold | hnew
        · exact (hm.src p hold).trans hself.symm
        · rw [hnew, hself]
          exact hp'.src_eq
    · intro dst boot reqId body hp
      rw [hself] at hp ⊢
      rcases hmove.request_cases hp with hold | ⟨_, _, _, k, asks, _⟩
      · exact hm.asks dst boot reqId body hold
      · exact ⟨k, asks.expects⟩
    · intro dst boot reqId asked st body hp
      rw [hself] at hp ⊢
      rcases hmove.response_cases hp with hold | hnew
      · exact hw'.replies dst boot reqId asked st body hold
      · exact hnew.answers hw' ht
    · rw [hself]
      exact wire_submits hw' hmove ht
    · rw [hself]
      exact wire_acks hw' hmove ht
    · intro dst boot reqId r hp
      rw [hself] at hp
      rcases hmove.request_cases hp with hold | ⟨_, _, _, k, asks, hafter⟩
      · exact (hm.applies dst boot reqId r hold).grows hmove.grows
      · cases asks with
        | apply id slot _ j _ q s found peer committed =>
          have hid : r.jobId = id := by
            rcases committed with ⟨_, _, _, _, _, htrans⟩
            exact htrans.jobId
          rw [hid]
          exact committed.grows hmove.grows

/-- The body a status comes with, by the method it answers. -/
def Reply.fits : Request → Status → Reply → Prop
  | .fwdSubmit _, st, body =>
    (∃ id, body = .jobId id) ∨ (st ≠ kCreated ∧ st ≠ kDuplicate ∧ body = .empty)
  | .claim _ _ _, st, body =>
    (st = kCreated ∧ ∃ state leaseSeq, body = .claimInfo state leaseSeq) ∨
      (st ≠ kCreated ∧ st ≠ kDuplicate ∧ body = .empty)
  | .resync id, st, body | .fwdStatus id, st, body =>
    (st = kCreated ∧ ∃ j, body = .job j ∧ j.id = id) ∨
      (st ≠ kCreated ∧ st ≠ kDuplicate ∧ body = .empty)
  | .replicate _, st, body | .apply _, st, body => st ≠ kDuplicate ∧ body = .empty
  | .fwdAck _ _ _ _, _, body | .drainHandoff _, _, body => body = .empty

theorem Plain.fits {ctx : ReqCtx} {st : Status} (h : Plain ctx st) :
    Reply.fits ctx.asked st .empty := by
  rcases h with ⟨hc, hd⟩ | ⟨id, ha⟩
  · cases ctx.asked with
    | fwdSubmit | claim | resync | fwdStatus => exact Or.inr ⟨hc, hd, rfl⟩
    | replicate | apply => exact ⟨hd, rfl⟩
    | fwdAck | drainHandoff => rfl
  · rw [ha]
    rfl

theorem SubmitTold.asked {w : World} {t : Trigger} {m₀ m m' : Node} {ctx : ReqCtx} {st : Status}
    {id : JobId} (h : SubmitTold t m₀ m m' (.reply ctx) st id) (hm : Wire w m) :
    ∃ p, ctx.asked = .fwdSubmit p := by
  generalize hcb : SubmitCb.reply ctx = cb at h
  cases h with
  | alone p _ submits => exact ⟨p, (hcb ▸ submits).ctx.2⟩
  | duplicate p _ j submits => exact ⟨p, (hcb ▸ submits).ctx.2⟩
  | refuse p _ submits => exact ⟨p, (hcb ▸ submits).ctx.2⟩
  | answered _ ps _ found => exact (hm.submits _ ps ctx found hcb.symm).1

theorem AckTold.asked {w : World} {t : Trigger} {m₀ m m' : Node} {ctx : ReqCtx} {id : JobId}
    {success : Bool} {st : Status} (h : AckTold t m₀ m m' (.reply ctx) id success st)
    (hm : Wire w m) :
    ∃ epoch leaseSeq success', ctx.asked = .fwdAck id epoch leaseSeq success' := by
  generalize hcb : AckCb.reply ctx = cb at h
  cases h with
  | alone _ l r _ found owned begins =>
    rcases begins.acks with ⟨_, epoch, leaseSeq, acks⟩
    exact ⟨epoch, leaseSeq, true, (hcb ▸ acks).ctx.2⟩
  | quorum id₀ _ slot member r q s body _ answers state pending isAck =>
    exact (hm.acks s (List.mem_of_getElem? state) _ ctx (isAck.trans (by rw [hcb]))).1
  | done _ j epoch leaseSeq success' _ acks => exact ⟨epoch, leaseSeq, _, (hcb ▸ acks).ctx.2⟩
  | plain _ _ _ _ source =>
    rcases source with ⟨epoch, leaseSeq, success', acks⟩ | ⟨s, hs, hdone⟩
    · exact ⟨epoch, leaseSeq, success', (hcb ▸ acks).ctx.2⟩
    · exact (hm.acks s hs _ ctx (hdone.trans (by rw [hcb]))).1

theorem Sends.fits {w : World} {t : Trigger} {m₀ m m' : Node} {src dst : Endpoint}
    {boot reqId : Nat} {asked : Request} {st : Status} {body : Reply}
    (h : Sends t m₀ m m' (.response src dst boot reqId asked st body)) (hm : Wire w m) :
    Reply.fits asked st body := by
  cases h with
  | plain ctx _ _ h => exact h.fits
  | show_ ctx id j _ hasked found =>
    have hid := m.store.find_id found
    rcases hasked with ha | ha <;> rw [ha] <;> exact Or.inl ⟨rfl, j, rfl, hid⟩
  | regrant ctx id j _ ha =>
    rw [ha]
    exact Or.inl ⟨rfl, j.state, j.leaseSeq, rfl⟩
  | serve ctx r _ serves =>
    cases serves with
    | copy j _ ha =>
      rw [ha]
      exact ⟨by decide, rfl⟩
    | apply _ epoch l _ ha =>
      rw [ha]
      exact ⟨by decide, rfl⟩
    | claim id proposed l _ ha =>
      rw [ha]
      exact Or.inl ⟨rfl, l.state, l.leaseSeq, rfl⟩
  | submit ctx _ id why =>
    rcases why.asked hm with ⟨p, ha⟩
    rw [ha]
    exact Or.inl ⟨id, rfl⟩
  | ack ctx id success _ why =>
    rcases why.asked hm with ⟨epoch, leaseSeq, success', ha⟩
    rw [ha]
    rfl

/-- Every response has the body its method and status call for. -/
def Shaped (n : Node) : Prop :=
  ∀ src dst boot reqId asked st body, .response src dst boot reqId asked st body ∈ n.outbox →
    Reply.fits asked st body

theorem shapes : Always K d (fun w => ∀ e, Shaped (w e)) := by
  refine always_of_node (Q := fun _ n => Shaped n) (fun _ h => h)
    (fun e => by simp [Shaped, Deployment.init]) (fun {c e t m m'} hin _ hm _ hmove => ?_)
  intro src dst boot reqId asked st body hp
  rcases hmove.response_cases hp with hold | hnew
  · exact hm src dst boot reqId asked st body hold
  · have hm := wire.inside hin e
    rw [Function.update_self] at hm
    exact hnew.fits hm

/-- A copy or a record is confirmed only by storing it. -/
theorem Sends.confirms {w : World} {t : Trigger} {m₀ m m' : Node} {src dst : Endpoint}
    {boot reqId : Nat} {asked : Request} {body : Reply} (hm : Wire w m)
    (h : Sends t m₀ m m' (.response src dst boot reqId asked kCreated body))
    (hasked : (∃ j, asked = .replicate j) ∨ ∃ r, asked = .apply r) :
    ∃ ctx r, ctx.src = dst ∧ ctx.asked = asked ∧ Serves t m₀ m ctx r body ∧
      m'.store = m.store.append r := by
  generalize hst : kCreated = st at h
  cases h with
  | plain ctx _ trigger h =>
    rcases h with ⟨hne, _⟩ | ⟨id, ha⟩
    · exact absurd hst.symm hne
    · rw [ha] at hasked
      rcases hasked with ⟨_, h⟩ | ⟨_, h⟩ <;> cases h
  | show_ ctx id j trigger ha =>
    rcases ha with ha | ha <;> rw [ha] at hasked <;> rcases hasked with ⟨_, h⟩ | ⟨_, h⟩ <;> cases h
  | regrant ctx id j trigger ha =>
    rw [ha] at hasked
    rcases hasked with ⟨_, h⟩ | ⟨_, h⟩ <;> cases h
  | serve ctx r _ serves open_ stored => exact ⟨ctx, r, rfl, rfl, serves, stored⟩
  | submit ctx _ id why =>
    rcases why.asked hm with ⟨p, ha⟩
    rw [ha] at hasked
    rcases hasked with ⟨_, h⟩ | ⟨_, h⟩ <;> cases h
  | ack ctx id success _ why =>
    rcases why.asked hm with ⟨epoch, leaseSeq, success', ha⟩
    rw [ha] at hasked
    rcases hasked with ⟨_, h⟩ | ⟨_, h⟩ <;> cases h

/-! ### Which call a response finishes -/

/-- A response is in its sender's outbox. -/
def Replied (w : World) (src dst : Endpoint) (asked : Request) (st : Status) (body : Reply) :
    Prop :=
  ∃ boot reqId, .response src dst boot reqId asked st body ∈ (w src).outbox

/-- A response that finishes a call is to the incarnation that asked. -/
def Matched : Cond := fun c e t =>
  match t with
  | .packet (.response _ _ boot reqId _ _ _) => reqId ∈ (c.node e).calls → boot = (c.node e).boot
  | _ => True

instance (c : Cluster) (e : Endpoint) (t : Trigger) : Decidable (Matched c e t) := by
  unfold Matched
  split <;> infer_instance

section Finishing

variable {c : Cluster} {e : Endpoint} {t : Trigger} {m : Node} {k : Cont} {st : Status}
  {body : Reply}

theorem Inside.asked (hin : Inside K d c e t m) {ctx : ReqCtx} (ht : t.ctx = some ctx) :
    Sent c.node e ctx :=
  hin.asked_of (fun x => (wire.reach hin.reach x).src) ht

/-- Requests come from members. -/
theorem Inside.sender_member (hin : Inside K d c e t m) {ctx : ReqCtx} (ht : t.ctx = some ctx) :
    ctx.src ∈ d.members := by
  by_contra hnot
  have hsent := hin.asked ht
  rw [Sent, idle_of_not_mem hin.reach hnot] at hsent
  cases hsent

/-- A request being handled is one its sender expects a reply to. -/
theorem Inside.expected (hin : Inside K d c e t m) {ctx : ReqCtx} (ht : t.ctx = some ctx) :
    ∃ k, Expects ctx.src e ctx.asked k := by
  have hsent := hin.asked ht
  have hname := (names.reach hin.reach ctx.src).1
  have hexp := (wire.reach hin.reach ctx.src).asks e ctx.boot ctx.reqId ctx.asked
    (by rw [hname]; exact hsent)
  rwa [hname] at hexp

/-- A response that finishes a call answers the request that waits, or is to an
    earlier incarnation and a method that is answered late. -/
theorem Inside.finished (hin : Inside K d c e t m) {src dst : Endpoint} {boot reqId : Nat}
    {asked : Request} {call : PendingCall}
    (ht : t = .packet (.response src dst boot reqId asked st body))
    (hfound : (c.node e).calls.lookup reqId = some call) :
    Replied c.node src e asked st body ∧ Reply.fits asked st body ∧
      (Expects e src asked call.cont ∨ (asked.deferred = true ∧ ¬ Matched c e t)) := by
  rcases hin.delivered _ ht with ⟨hdst, x, hx⟩
  have hwx := wire.reach hin.reach x
  have hname : src = x := (hwx.src _ hx).trans (names.reach hin.reach x).1
  subst hname
  change dst = e at hdst
  subst hdst
  refine ⟨⟨boot, reqId, hx⟩, shapes.reach hin.reach src _ _ _ _ _ _ _ hx, ?_⟩
  have hwe := wire.reach hin.reach dst
  have hself := (names.reach hin.reach dst).1
  by_cases hb : boot = (c.node dst).boot
  · left
    rcases hwe.calls reqId call hfound with ⟨dst', body', hp, hexp⟩
    have hsent := hwx.replies dst boot reqId asked st body
      (by rw [(names.reach hin.reach src).1]; exact hx)
    rw [Sent, (names.reach hin.reach src).1] at hsent
    simp only at hsent
    rw [hself] at hp hexp
    have hu := hwe.unique src dst' boot reqId asked body' (by rw [hself]; exact hsent)
      (by rw [hself, hb]; exact hp)
    rw [hu.1, hu.2]
    exact hexp
  · right
    have hadm := hin.admitted
    rw [ht] at hadm ⊢
    simp only [Node.admits, Bool.or_eq_true, decide_eq_true_eq] at hadm
    exact ⟨hadm.resolve_right hb,
      fun hmatched => hb (hmatched (AList.lookup_isSome.mp (hfound ▸ rfl)))⟩

theorem Inside.answered (hin : Inside K d c e t m) (h : Answers t (c.node e) k st body) :
    ∃ src asked, Replied c.node src e asked st body ∧ Reply.fits asked st body ∧
      (Expects e src asked k ∨ (asked.deferred = true ∧ ¬ Matched c e t)) := by
  rcases h with ⟨src, dst, boot, reqId, asked, call, ht, hfound, rfl⟩
  exact ⟨src, asked, hin.finished ht hfound⟩

/-- A copy that a resync reply brings was shown by another node. -/
theorem Inside.shown_by (hin : Inside K d c e t m) {id : JobId} {j : Job}
    (h : Answers t (c.node e) (.resync id) st (.job j)) :
    ∃ src, src ≠ e ∧ Replied c.node src e (.resync id) st (.job j) := by
  rcases hin.answered h with ⟨src, asked, hr, hfits, hexp | ⟨hlate, _⟩⟩
  · cases hexp with
    | resync _ other => exact ⟨src, other, hr⟩
  · -- A late answer carries no copy.
    cases asked with
    | fwdSubmit p => rcases hfits with ⟨id', hbody⟩ | ⟨_, _, hbody⟩ <;> cases hbody
    | fwdAck id' epoch leaseSeq success => cases hfits
    | replicate | claim | resync | fwdStatus | apply | drainHandoff => cases hlate

/-- Where every response is matched, it answers the request that waits. -/
theorem Inside.matched (hin : Inside K d c e t m) (hK : Matched c e t)
    (h : Answers t (c.node e) k st body) :
    ∃ src asked, Replied c.node src e asked st body ∧ Expects e src asked k := by
  rcases hin.answered h with ⟨src, asked, hr, _, hexp | ⟨_, hnot⟩⟩
  · exact ⟨src, asked, hr, hexp⟩
  · exact absurd hK hnot

/-- The reply to an apply request finds the commit it is about. -/
theorem Inside.carried (hin : Inside K d c e t m) {id : JobId} {slot : Nat} {member : Endpoint}
    {r : Record} {q : Nat} {s : QState}
    (h : Answers t (c.node e) (.apply id slot member r q) st body)
    (hq : (c.node e).qstates[q]? = some s) : r.jobId = id ∧ s.done.carries r := by
  have hwire := wire.reach hin.reach e
  rcases h with ⟨src, dst, boot, reqId, asked, call, _, hcall, hk⟩
  rcases hwire.calls reqId call hcall with ⟨dst', body', _, hexp⟩
  rcases hwire.commits reqId call id slot member r q hcall hk with ⟨s', hs', hcar⟩
  rw [hk] at hexp
  cases hexp with
  | apply => exact ⟨rfl, Option.some.inj (hs'.symm.trans hq) ▸ hcar⟩

/-- A matched reply to an apply request is that of the member it was sent to, and
    the record was appended here before it was sent. -/
theorem Inside.applied (hin : Inside K d c e t m) (hK : Matched c e t) {id : JobId} {slot : Nat}
    {member : Endpoint} {r : Record} {q : Nat}
    (h : Answers t (c.node e) (.apply id slot member r q) st body) :
    member ≠ e ∧ Replied c.node member e (.apply r) st body ∧ Committed (c.node e) r.jobId r := by
  rcases hin.matched hK h with ⟨src, asked, hrep, hexp⟩
  cases hexp with
  | apply _ _ _ other =>
    refine ⟨other, hrep, ?_⟩
    rcases hrep with ⟨boot, reqId, hp⟩
    have hnames := names.reach hin.reach
    have hsent := (wire.reach hin.reach member).replies e boot reqId (.apply r) st body
      (by rw [(hnames member).1]; exact hp)
    rw [Sent, (hnames member).1] at hsent
    exact (wire.reach hin.reach e).applies member boot reqId r (by rw [(hnames e).1]; exact hsent)

end Finishing

end Invariant

end Tautq
