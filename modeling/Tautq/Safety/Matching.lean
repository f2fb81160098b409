import Tautq.Safety.Callbacks
import Tautq.Theory.RpcNet

/-!
# Responses Answer Their Own Requests

A response is matched by its request id alone. The ids start at one again with every process,
and whoever holds the context of a request may respond on whatever session stands by then.
So a response to a request of an earlier incarnation is taken for the answer to the call
that has the same id now, whoever that call was addressed to.

It cannot happen if a process is started again only when nothing of it is left: no request
of its in flight, no response to it in flight, and no context of it held by a node that
it has called. Then every request in flight and every context is of the present incarnation
of its sender, where an id belongs to one call.

## Main definitions

* `Ids`: Ids and calls of one node.
* `Genuine`, `Held`: What is in flight, and what is held, is of the present incarnations.
* `Answers`: The property of one callback.
* `Drained`: The condition on restarts.

## Theorems

* `Ids.issue`, `Move.ids`: A process never uses an id twice.
* `responses_match`: Every response that a callback is given is the answer to its call.
* `response_mismatched`: Without the condition it may be the answer to another one.
-/

namespace Tautq.Rpc

open RpcNode

/-! ### The ids of one node -/

/-- A call to a peer with an id, made by some incarnation. -/
def Asked (n : RpcNode) (dst : Endpoint) (reqId boot : Nat) : Prop :=
  ∃ i ∈ n.issued, i.dst = dst ∧ i.reqId = reqId ∧ i.boot = boot

/-- Two calls are not of one incarnation and under one id. -/
def Apart (i j : Issued) : Prop :=
  i.reqId ≠ 0 → i.boot = j.boot → i.reqId ≠ j.reqId

/-- The table has the calls under their ids, and no process uses an id twice. -/
structure Ids (n : RpcNode) : Prop where
  started : 1 ≤ n.nextReq
  table : ∀ id c, n.calls.lookup id = some c → id ≠ 0 ∧ ∃ i, n.issued[c.token]? = some i ∧
    i.dst = c.peer ∧ i.reqId = id ∧ i.boot = n.boot
  used : ∀ i ∈ n.issued, i.boot = n.boot → i.reqId < n.nextReq
  drawn : ∀ i ∈ n.issued, i.boot ∈ n.boot :: n.boots
  apart : n.issued.Pairwise Apart

section Ids

variable {t : Input} {n n' : RpcNode}

theorem Ids.congr (h : Ids n) (heq : n'.ledger = n.ledger) (hboot : n'.boot = n.boot)
    (hboots : n'.boots = n.boots) : Ids n' := by
  simp only [RpcNode.ledger, Prod.mk.injEq] at heq
  rcases heq with ⟨hcalls, hnext, hissued, _⟩
  constructor <;> simp only [hcalls, hnext, hissued, hboot, hboots]
  exacts [h.started, h.table, h.used, h.drawn, h.apart]

/-- A call is issued, under the next id or under none. -/
theorem Ids.issue (h : Ids n) {reqId next : Nat} (id : NextId n reqId next) (dst : Endpoint)
    (timeout : Time) : Ids { n.issue dst reqId timeout with nextReq := next } := by
  have hstarted := h.started
  have hnew : reqId < next := by
    rcases id with ⟨rfl, rfl⟩ | ⟨rfl, rfl⟩ <;> omega
  refine ⟨h.started.trans id.le, fun id' c hc => ?_, fun i hi hboot => ?_, fun i hi => ?_, ?_⟩
  · rcases h.table id' c hc with ⟨hzero, i, hi, hcall⟩
    exact ⟨hzero, i, issued_append hi, hcall⟩
  · rcases List.mem_append.mp hi with hi | hi
    · exact (h.used i hi hboot).trans_le id.le
    · rw [List.mem_singleton.mp hi]
      exact hnew
  · rcases List.mem_append.mp hi with hi | hi
    · exact h.drawn i hi
    · rw [List.mem_singleton.mp hi]
      exact List.mem_cons_self
  · refine List.pairwise_append.mpr ⟨h.apart, List.pairwise_singleton _ _, fun i hi j hj => ?_⟩
    -- An id of this process is below the next one.
    rw [List.mem_singleton.mp hj]
    intro hzero hboot
    have hused := h.used i hi hboot
    rcases id with ⟨rfl, _⟩ | ⟨rfl, _⟩
    · exact hzero
    · exact Nat.ne_of_lt hused

theorem Ids.enter (h : Ids n) (dst : Endpoint) (timeout : Time) (cb : List Action) :
    Ids (n.enter dst timeout cb) := by
  have hissue := h.issue (Or.inr ⟨rfl, rfl⟩) dst timeout
  refine ⟨hissue.started, fun id c hc => ?_, hissue.used, hissue.drawn, hissue.apart⟩
  rcases lookup_insert_cases hc with ⟨rfl, rfl⟩ | ⟨_, hold⟩
  · refine ⟨Nat.ne_of_gt h.started, _, List.getElem?_concat_length, rfl, rfl, rfl⟩
  · exact hissue.table id c hold

theorem Move.ids (hmove : Move t n n') (h : Ids n) : Ids n' := by
  have hboot := hmove.sameRun.boot
  have hboots := hmove.sameRun.boots
  cases hmove.ledgerStep with
  | same ledger => exact h.congr ledger hboot hboots
  | refuse dst reqId next timeout st id ledger =>
    have hfire : Ids ({ n.issue dst reqId timeout with nextReq := next }.fire n.issued.length st
        .layer) := by
      have hissue := h.issue id dst timeout
      exact ⟨hissue.started, hissue.table, hissue.used, hissue.drawn, hissue.apart⟩
    exact hfire.congr ledger hboot hboots
  | enter dst timeout cb ledger => exact (h.enter dst timeout cb).congr ledger hboot hboots
  | finish id c st cause found why ledger =>
    have hfire : Ids ({ n with calls := n.calls.erase id }.fire c.token st cause) :=
      ⟨h.started, fun id' c' hc => h.table id' c' (lookup_erase_cases hc).2, h.used,
        h.drawn, h.apart⟩
    exact hfire.congr ledger hboot hboots

theorem Ids.restart (h : Ids n) {stamp boot : Nat} (hfresh : boot ∉ n.boot :: n.boots) :
    Ids (n.restart stamp boot) where
  started := Nat.le_refl 1
  table id c hc := by cases hc
  used i hi hboot := by
    have hdrawn := h.drawn i hi
    rw [hboot] at hdrawn
    exact absurd hdrawn hfresh
  drawn i hi := List.mem_cons_of_mem _ (h.drawn i hi)
  apart := h.apart

/-- The id and the incarnation tell which call it is. -/
theorem Ids.call_eq (h : Ids n) {j k : Nat} {i i' : Issued} (hj : n.issued[j]? = some i)
    (hk : n.issued[k]? = some i') (hzero : i.reqId ≠ 0) (hboot : i.boot = i'.boot)
    (hreq : i.reqId = i'.reqId) : j = k := by
  rcases List.getElem?_eq_some_iff.mp hj with ⟨hjlt, rfl⟩
  rcases List.getElem?_eq_some_iff.mp hk with ⟨hklt, rfl⟩
  have hapart := List.pairwise_iff_getElem.mp h.apart
  rcases Nat.lt_trichotomy j k with hlt | heq | hgt
  · exact absurd hreq (hapart j k hjlt hklt hlt hzero hboot)
  · exact heq
  · exact absurd hreq.symm (hapart k j hklt hjlt hgt (hreq ▸ hzero) hboot.symm)

end Ids

/-! ### What a move adds -/

/-- The same incarnation, with histories that have grown. -/
structure Onward (n n' : RpcNode) : Prop where
  boot : n'.boot = n.boot
  issued : n.issued <+: n'.issued
  responded : n.responded ⊆ n'.responded

theorem Onward.refl (n : RpcNode) : Onward n n :=
  ⟨rfl, List.prefix_rfl, fun _ h => h⟩

section Moves

variable {t : Input} {n n' : RpcNode}

theorem Asked.onward {dst : Endpoint} {reqId boot : Nat} (h : Asked n dst reqId boot)
    (hon : Onward n n') : Asked n' dst reqId boot := by
  rcases h with ⟨i, hi, hcall⟩
  exact ⟨i, hon.issued.subset hi, hcall⟩

theorem Move.responded_subset (hmove : Move t n n') : n.responded ⊆ n'.responded := by
  cases hmove with
  | deed n' h =>
    cases h with
    | still n' h => exact (h.field RpcNode.responded).symm ▸ fun _ h => h
    | answer => exact List.subset_append_left _ _
    | refuse | callSent | callQueued | hello | release | finish => exact fun _ h => h
  | ack | flush | dropped | greeted | acked | created | opened | forgot | passed =>
    exact fun _ h => h

theorem Move.onward (hmove : Move t n n') : Onward n n' := by
  refine ⟨hmove.sameRun.boot, ?_, hmove.responded_subset⟩
  cases hmove.ledgerStep with
  | same ledger | finish _ _ _ _ _ _ ledger =>
    simp only [RpcNode.ledger, Prod.mk.injEq] at ledger
    rw [show n'.issued = n.issued from ledger.2.2.1]
  | refuse _ _ _ _ _ _ ledger | enter _ _ _ ledger =>
    simp only [RpcNode.ledger, Prod.mk.injEq] at ledger
    rw [ledger.2.2.1]
    exact List.prefix_append _ _

/-- A request of a call that was just made. -/
def NewRequest (n n' : RpcNode) (dst : Endpoint) (f : Frame) : Prop :=
  ∃ method body, f = .request method n.nextReq body n.boot ∧ Asked n' dst n.nextReq n.boot

theorem asked_enter (m : RpcNode) (dst : Endpoint) (timeout : Time) (cb : List Action) :
    Asked (m.enter dst timeout cb) dst m.nextReq m.boot :=
  ⟨_, List.mem_append_right _ List.mem_cons_self, rfl, rfl, rfl⟩

/-- A frame that goes out was waiting, is the request of a new call, or answers a context that
    is held. -/
theorem Move.frames_cases (hmove : Move t n n') {m : Endpoint × Frame} (hm : m ∈ n'.frames) :
    m ∈ n.frames ∨ m.2 ∈ (n.peer m.1).pending ∨ NewRequest n n' m.1 m.2 ∨
      ∃ ctx st body, m = (ctx.src, .response ctx st body) ∧ ctx ∈ n.ctxs ∧
        (ctx, st, body) ∈ n'.responded := by
  cases hmove with
  | deed n' h =>
    cases h with
    | still n' h =>
      rw [show n'.frames = n.frames from h.field RpcNode.frames] at hm
      exact Or.inl hm
    | refuse | callQueued | hello | release | finish => exact Or.inl hm
    | callSent dst method body timeout cb standing =>
      rcases List.mem_append.mp hm with hm | hm
      · exact Or.inl hm
      · rw [List.mem_singleton.mp hm]
        exact Or.inr (Or.inr (Or.inl ⟨method, body, rfl, asked_enter _ dst timeout cb⟩))
    | answer ctx st body mem standing =>
      rcases List.mem_append.mp hm with hm | hm
      · exact Or.inl hm
      · exact Or.inr (Or.inr (Or.inr ⟨ctx, st, body, List.mem_singleton.mp hm, mem,
          List.mem_append_right _ List.mem_cons_self⟩))
  | ack | dropped | greeted | acked | created | opened | forgot | passed => exact Or.inl hm
  | flush a f fs standing pending =>
    rcases List.mem_append.mp hm with hm | hm
    · exact Or.inl hm
    · rw [List.mem_singleton.mp hm, pending]
      exact Or.inr (Or.inl List.mem_cons_self)

theorem mem_pending_setPeer {a x : Endpoint} {p : Peer} {f : Frame}
    (hf : f ∈ ((n.setPeer a p).peer x).pending) :
    f ∈ (n.peer x).pending ∨ (x = a ∧ f ∈ p.pending) := by
  rcases peer_setPeer_cases (n := n) (a := a) (p := p) x with ⟨hx, heq⟩ | ⟨_, heq⟩
  · rw [heq] at hf
    exact Or.inr ⟨hx, hf⟩
  · rw [heq] at hf
    exact Or.inl hf

/-- A frame that waits has waited, or is the request of a new call. -/
theorem Move.pending_cases (hmove : Move t n n') {x : Endpoint} {f : Frame}
    (hf : f ∈ (n'.peer x).pending) : f ∈ (n.peer x).pending ∨ NewRequest n n' x f := by
  -- Most changes of a peer leave its queue as it is, or shorten it.
  have hset : ∀ {m : RpcNode} {a : Endpoint} {p : Peer}, (∀ y, m.peer y = n.peer y) →
      f ∈ ((m.setPeer a p).peer x).pending → (∀ g ∈ p.pending, g ∈ (n.peer a).pending) →
        f ∈ (n.peer x).pending := by
    intro m a p hm hset hsub
    rcases mem_pending_setPeer hset with hold | ⟨rfl, hnew⟩
    · exact hm x ▸ hold
    · exact hsub f hnew
  cases hmove with
  | deed n' h =>
    cases h with
    | still n' h =>
      have hcore : ((n'.peer x).core).pending = ((n.peer x).core).pending := by rw [h.peer x]
      exact Or.inl (hcore ▸ hf)
    | refuse | callSent | answer | release | finish => exact Or.inl hf
    | callQueued dst method body timeout cb =>
      rcases mem_pending_setPeer (n := n) hf with hf | ⟨rfl, hf⟩
      · exact Or.inl hf
      · rcases List.mem_append.mp hf with hf | hf
        · exact Or.inl hf
        · rw [List.mem_singleton.mp hf]
          exact Or.inr ⟨method, body, rfl, asked_enter (n.setPeer _ _) x timeout cb⟩
    | hello a => exact Or.inl (hset (m := n) (fun _ => rfl) hf fun _ h => h)
  | ack | opened | passed => exact Or.inl hf
  | flush a g fs standing pending =>
    refine Or.inl (hset (m := { n with frames := _ }) (fun _ => rfl) hf fun g' hg => ?_)
    rw [pending]
    exact List.mem_cons_of_mem _ hg
  | dropped a why => exact Or.inl (hset (m := n) (fun _ => rfl) hf fun g hg => by cases hg)
  | greeted | acked | created => exact Or.inl (hset (m := n) (fun _ => rfl) hf fun _ h => h)
  | forgot a trigger gone =>
    rw [peer_erase] at hf
    split at hf
    · cases hf
    · exact Or.inl hf

/-- A context is held, or is that of the request that is handled. -/
theorem Move.ctxs_cases (hmove : Move t n n') {ctx : ReqCtx} (hctx : ctx ∈ n'.ctxs) :
    ctx ∈ n.ctxs ∨
    ∃ body as, t = .frame ctx.src (.request ctx.method ctx.reqId body ctx.boot) as := by
  cases hmove with
  | deed n' h =>
    cases h with
    | still n' h =>
      rw [show n'.ctxs = n.ctxs from h.field RpcNode.ctxs] at hctx
      exact Or.inl hctx
    | release ctx' => exact Or.inl (List.mem_of_mem_erase hctx)
    | refuse | callSent | callQueued | hello | answer | finish => exact Or.inl hctx
  | ack | flush | dropped | greeted | acked | created | forgot | passed => exact Or.inl hctx
  | opened src method reqId body boot as trigger =>
    rcases List.mem_append.mp hctx with hctx | hctx
    · exact Or.inl hctx
    · rw [List.mem_singleton.mp hctx]
      exact Or.inr ⟨body, as, trigger⟩

/-- A callback that runs has run, ends for a reason of the layer, or is given the response that
    is handled. -/
theorem Move.fired_cases (hmove : Move t n n') {f : Fired} (hf : f ∈ n'.fired) :
    f ∈ n.fired ∨ f.cause = .layer ∨ ∃ src ctx body as c,
      t = .frame src (.response ctx f.status body) as ∧ f.cause = .wire src ctx body ∧
        f.boot = n.boot ∧ n.calls.lookup ctx.reqId = some c ∧ f.token = c.token := by
  cases hmove.ledgerStep with
  | same ledger | enter _ _ _ ledger =>
    simp only [RpcNode.ledger, Prod.mk.injEq] at ledger
    rw [ledger.2.2.2] at hf
    exact Or.inl hf
  | refuse _ _ _ _ _ _ ledger =>
    simp only [RpcNode.ledger, Prod.mk.injEq] at ledger
    rw [ledger.2.2.2] at hf
    rcases List.mem_append.mp hf with hf | hf
    · exact Or.inl hf
    · rw [List.mem_singleton.mp hf]
      exact Or.inr (Or.inl rfl)
  | finish id c st cause found why ledger =>
    simp only [RpcNode.ledger, Prod.mk.injEq] at ledger
    rw [ledger.2.2.2] at hf
    rcases List.mem_append.mp hf with hf | hf
    · exact Or.inl hf
    · rw [List.mem_singleton.mp hf]
      rcases why with hlayer | ⟨src, ctx, body, as, trigger, hwire, rfl⟩
      · exact Or.inr (Or.inl hlayer)
      · exact Or.inr (Or.inr ⟨src, ctx, body, as, c, trigger, hwire, rfl, found, rfl⟩)

end Moves

/-! ### The network -/

/-- A context is of a call of its sender's present incarnation, to the node that holds it. -/
structure Held (s : Net) (holder : Endpoint) (ctx : ReqCtx) : Prop where
  boot : ctx.boot = (s.node ctx.src).boot
  asked : Asked (s.node ctx.src) holder ctx.reqId ctx.boot

/-- A request is of a call of its sender's present incarnation. A response is for its
    addressee, was given, and answers a context of such a call. -/
def Genuine (s : Net) (src dst : Endpoint) : Frame → Prop
  | .request _ reqId _ boot => boot = (s.node src).boot ∧ Asked (s.node src) dst reqId boot
  | .response ctx st body => ctx.src = dst ∧ Held s src ctx ∧
    (ctx, st, body) ∈ (s.node src).responded

/-- A callback was given a response to its call: the call `i` was made by the incarnation that
    the callback ran in, to the node that has given the response, for a context of this
    call. -/
structure Traced (s : Net) (e : Endpoint) (f : Fired) (src : Endpoint) (ctx : ReqCtx) (body : Bytes)
    (i : Issued) : Prop where
  call : (s.node e).issued[f.token]? = some i
  dst : i.dst = src
  boot : i.boot = f.boot
  numbered : i.reqId ≠ 0
  sender : ctx.src = e
  reqId : ctx.reqId = i.reqId
  ctxBoot : ctx.boot = i.boot
  given : (ctx, f.status, body) ∈ (s.node src).responded

def Frame.isRequest : Frame → Bool
  | .request .. => true
  | .response .. => false

/-- All that is in flight, waiting or held is of the present incarnations. -/
structure Matched (s : Net) : Prop where
  ids : ∀ e, Ids (s.node e)
  flying : ∀ m ∈ s.frames, Genuine s m.1 m.2.1 m.2.2
  waiting : ∀ e x, ∀ f ∈ ((s.node e).peer x).pending, f.isRequest = true ∧ Genuine s e x f
  held : ∀ e, ∀ ctx ∈ (s.node e).ctxs, Held s e ctx
  fired : ∀ e, ∀ f ∈ (s.node e).fired, ∀ src ctx body, f.cause = .wire src ctx body →
    ∃ i, Traced s e f src ctx body i

section Onward

variable {s s' : Net}

theorem Held.onward {e : Endpoint} {ctx : ReqCtx} (h : Held s e ctx)
    (hon : Onward (s.node ctx.src) (s'.node ctx.src)) : Held s' e ctx :=
  ⟨h.boot.trans hon.boot.symm, h.asked.onward hon⟩

theorem Genuine.onward {src dst : Endpoint} {f : Frame} (h : Genuine s src dst f)
    (hon : ∀ e, Onward (s.node e) (s'.node e)) : Genuine s' src dst f := by
  cases f with
  | request method reqId body boot => exact ⟨h.1.trans (hon src).boot.symm, h.2.onward (hon src)⟩
  | response ctx st body => exact ⟨h.1, h.2.1.onward (hon ctx.src), (hon src).responded h.2.2⟩

theorem issued_onward {n n' : RpcNode} (hon : Onward n n') {k : Nat} {i : Issued}
    (h : n.issued[k]? = some i) : n'.issued[k]? = some i := by
  rcases hon.issued with ⟨l, hl⟩
  rw [← hl, List.getElem?_append_left (List.getElem?_eq_some_iff.mp h).1]
  exact h

theorem Traced.onward {e src : Endpoint} {f : Fired} {ctx : ReqCtx} {body : Bytes} {i : Issued}
    (h : Traced s e f src ctx body i) (hon : ∀ e, Onward (s.node e) (s'.node e)) :
    Traced s' e f src ctx body i :=
  { h with call := issued_onward (hon e) h.call, given := (hon src).responded h.given }

end Onward

/-- A node's new frames, contexts and callbacks are all that a move can break. -/
theorem Matched.move {K : Net → Act → Prop} {s : Net} {e : Endpoint} {t : Input} {n n' : RpcNode}
    (hin : Inside K s e t n) (hn : Matched (s.put e n)) (hmove : Move t n n') :
    Matched (s.put e n') := by
  have hself : ∀ m : RpcNode, (s.put e m).node e = { m with hellos := [], frames := [] } :=
    fun m => Function.update_self ..
  have hother : ∀ x ≠ e, (s.put e n').node x = (s.put e n).node x := fun x hx => by
    simp only [Net.put, Function.update_of_ne hx]
  have hon : ∀ x, Onward ((s.put e n).node x) ((s.put e n').node x) := by
    intro x
    by_cases hx : x = e
    · subst hx
      rw [hself, hself]
      exact ⟨hmove.onward.boot, hmove.onward.issued, hmove.onward.responded⟩
    · rw [hother x hx]
      exact .refl _
  -- What is handled was in flight, so it is genuine.
  have hflight : ∀ {src f as}, t = .frame src f as → Genuine (s.put e n) src e f := fun ht =>
    hn.flying _ (List.mem_append_left _ (hin.received ht))
  have hnewRequest : ∀ {x f}, NewRequest n n' x f → f.isRequest = true ∧
      Genuine (s.put e n') e x f := by
    rintro x f ⟨method, body, rfl, hasked⟩
    refine ⟨rfl, ?_, ?_⟩
    · rw [hself]
      exact hmove.onward.boot.symm
    · rw [hself]
      exact hasked
  have hwaiting : ∀ {x f}, f ∈ (n.peer x).pending → f.isRequest = true ∧
      Genuine (s.put e n) e x f := by
    intro x f hf
    refine hn.waiting e x f ?_
    rw [hself]
    exact hf
  constructor
  case ids =>
    intro x
    by_cases hx : x = e
    · subst hx
      have h := hn.ids x
      rw [hself] at h ⊢
      exact (hmove.ids (h.congr rfl rfl rfl)).congr rfl rfl rfl
    · rw [hother x hx]
      exact hn.ids x
  case flying =>
    intro m hm
    rcases List.mem_append.mp hm with hm | hm
    · exact (hn.flying m (List.mem_append_left _ hm)).onward hon
    · rcases List.mem_map.mp hm with ⟨⟨x, f⟩, hf, rfl⟩
      rcases hmove.frames_cases hf with hold | hwait | hnew | ⟨ctx, st, body, heq, hctx, hgiven⟩
      · exact (hn.flying _ (List.mem_append_right _ (List.mem_map_of_mem hold))).onward hon
      · exact (hwaiting hwait).2.onward hon
      · exact (hnewRequest hnew).2
      · simp only [Prod.mk.injEq] at heq
        rcases heq with ⟨rfl, rfl⟩
        have hheld := hn.held e ctx (by rw [hself]; exact hctx)
        refine ⟨rfl, hheld.onward (hon ctx.src), ?_⟩
        rw [hself]
        exact hgiven
  case waiting =>
    intro a x f hf
    by_cases ha : a = e
    · subst ha
      rw [hself] at hf
      rcases hmove.pending_cases hf with hold | hnew
      · exact ⟨(hwaiting hold).1, (hwaiting hold).2.onward hon⟩
      · exact hnewRequest hnew
    · rw [hother a ha] at hf
      exact ⟨(hn.waiting a x f hf).1, (hn.waiting a x f hf).2.onward hon⟩
  case held =>
    intro a ctx hctx
    by_cases ha : a = e
    · subst ha
      rw [hself] at hctx
      rcases hmove.ctxs_cases hctx with hold | ⟨body, as, ht⟩
      · exact (hn.held a ctx (by rw [hself]; exact hold)).onward (hon ctx.src)
      · have hrequest := hflight ht
        exact Held.onward ⟨hrequest.1, hrequest.2⟩ (hon ctx.src)
    · rw [hother a ha] at hctx
      exact (hn.held a ctx hctx).onward (hon ctx.src)
  case fired =>
    intro a f hf src ctx body hcause
    -- It has run before, or it is given the response that is handled.
    have hbefore : f ∈ ((s.put e n).node a).fired ∨ (a = e ∧ ∃ as c,
        t = .frame src (.response ctx f.status body) as ∧ f.boot = n.boot ∧
          n.calls.lookup ctx.reqId = some c ∧ f.token = c.token) := by
      by_cases ha : a = e
      · subst ha
        rw [hself] at hf
        rcases hmove.fired_cases hf with hold | hlayer | ⟨src', ctx', body', as, c,
          ht, hwire, hrest⟩
        · rw [hself]
          exact Or.inl hold
        · rw [hlayer] at hcause
          cases hcause
        · rw [hwire] at hcause
          cases hcause
          exact Or.inr ⟨rfl, as, c, ht, hrest⟩
      · rw [hother a ha] at hf
        exact Or.inl hf
    rcases hbefore with hold | ⟨rfl, as, c, ht, hboot, hfound, htoken⟩
    · rcases hn.fired a f hold src ctx body hcause with ⟨i, hi⟩
      exact ⟨i, hi.onward hon⟩
    · rcases hflight ht with ⟨hsrc, ⟨hctxboot, hasked⟩, hgiven⟩
      have hids := hn.ids a
      rw [hself] at hids
      rcases hids.table ctx.reqId c hfound with ⟨hzero, i, hi, hpeer, hreq, hiboot⟩
      -- The call in the table and the call that the context is of have one id: they are one.
      rw [hsrc, hself] at hasked
      rw [hsrc, hself] at hctxboot
      rcases hasked with ⟨i', hi', hdst, hreq', hboot'⟩
      rcases List.getElem?_of_mem hi' with ⟨k, hk⟩
      have hsame : c.token = k := hids.call_eq hi hk (hreq ▸ hzero)
        (hiboot.trans (hctxboot.symm.trans hboot'.symm)) (hreq.trans hreq'.symm)
      have hii : i = i' := by
        rw [hsame] at hi
        exact Option.some.inj (hi.symm.trans hk)
      have htraced : Traced (s.put a n) a f src ctx body i :=
        { call := by
            rw [htoken, hself]
            exact hi
          dst := hii ▸ hdst
          boot := hiboot.trans hboot.symm
          numbered := hreq ▸ hzero
          sender := hsrc
          reqId := hreq.symm
          ctxBoot := hctxboot.trans hiboot.symm
          given := hgiven }
      exact ⟨i, htraced.onward hon⟩

/-- A frame that a restart of a node would leave behind: a request of that node, or a response
    to it. -/
def Concerns (e : Endpoint) (m : Endpoint × Endpoint × Frame) : Prop :=
  if m.2.2.isRequest then m.1 = e else m.2.1 = e

/-- A process is started again only when no request of its and no response to it is in flight,
    and no node that it has called holds a context of it. -/
def Drained (s : Net) : Act → Prop
  | .restart e _ => (∀ m ∈ s.frames, ¬ Concerns e m) ∧
      ∀ i ∈ (s.node e).issued, ∀ ctx ∈ (s.node i.dst).ctxs, ctx.src ≠ e
  | .act .. | .peerDead .. | .tick .. | .advance .. | .hello .. | .frame .. | .loseHello _
  | .loseFrame _ => True

instance (e : Endpoint) (m : Endpoint × Endpoint × Frame) : Decidable (Concerns e m) :=
  inferInstanceAs (Decidable (if m.2.2.isRequest then m.1 = e else m.2.1 = e))

instance (s : Net) : ∀ a, Decidable (Drained s a)
  | .restart .. => inferInstanceAs (Decidable (_ ∧ _))
  | .act .. | .peerDead .. | .tick .. | .advance .. | .hello .. | .frame .. | .loseHello _
  | .loseFrame _ => .isTrue trivial

theorem matched_init (d : Setup) : Matched d.init where
  ids e :=
    { started := Nat.le_refl 1
      table := fun id c hc => by cases hc
      used := fun i hi => by cases hi
      drawn := fun i hi => by cases hi
      apart := List.Pairwise.nil }
  flying m hm := by cases hm
  waiting e x f hf := by cases hf
  held e ctx hctx := by cases hctx
  fired e f hf := by cases hf

theorem Matched.reboot {s : Net} (hs : Matched s) {e : Endpoint} {boot : Nat}
    (hK : Drained s (.restart e boot)) (hfresh : s.Fresh e boot) : Matched (s.reboot e boot) := by
  rcases hK with ⟨hquiet, hlet⟩
  have hself : (s.reboot e boot).node e = (s.node e).restart (s.clock + 1) boot :=
    Function.update_self ..
  have hother : ∀ x ≠ e, (s.reboot e boot).node x = s.node x := fun x hx =>
    Function.update_of_ne hx ..
  have hon : ∀ x ≠ e, Onward (s.node x) ((s.reboot e boot).node x) := fun x hx => by
    rw [hother x hx]
    exact .refl _
  have hgiven : ∀ x, (s.node x).responded ⊆ ((s.reboot e boot).node x).responded := by
    intro x
    by_cases hx : x = e
    · rw [hx, hself]
      exact fun _ h => h
    · exact (hon x hx).responded
  -- A frame survives if it is not one of those that the condition rules out.
  have hgenuine : ∀ {src dst f}, ¬ Concerns e (src, dst, f) → Genuine s src dst f →
      Genuine (s.reboot e boot) src dst f := by
    intro src dst f hfree h
    cases f with
    | request method reqId body bt =>
      exact ⟨h.1.trans (hon src hfree).boot.symm, h.2.onward (hon src hfree)⟩
    | response ctx st body =>
      have hsrc : ctx.src ≠ e := fun hc => hfree (h.1 ▸ hc)
      exact ⟨h.1, h.2.1.onward (hon ctx.src hsrc), hgiven src h.2.2⟩
  constructor
  case ids =>
    intro x
    by_cases hx : x = e
    · rw [hx, hself]
      exact (hs.ids e).restart hfresh.2
    · rw [hother x hx]
      exact hs.ids x
  case flying => exact fun m hm => hgenuine (hquiet m hm) (hs.flying m hm)
  case waiting =>
    intro a x f hf
    by_cases ha : a = e
    · rw [ha, hself] at hf
      cases hf
    · rw [hother a ha] at hf
      rcases hs.waiting a x f hf with ⟨hrequest, h⟩
      refine ⟨hrequest, hgenuine ?_ h⟩
      rw [Concerns, if_pos hrequest]
      exact ha
  case held =>
    intro a ctx hctx
    by_cases ha : a = e
    · rw [ha, hself] at hctx
      cases hctx
    · rw [hother a ha] at hctx
      have hheld := hs.held a ctx hctx
      refine hheld.onward (hon ctx.src fun hsrc => ?_)
      rcases hheld.asked with ⟨i, hi, hdst, _⟩
      rw [hsrc] at hi
      exact hlet i hi ctx (hdst ▸ hctx) hsrc
  case fired =>
    intro a f hf src ctx body hcause
    have hsame : ((s.reboot e boot).node a).fired = (s.node a).fired ∧
        ((s.reboot e boot).node a).issued = (s.node a).issued := by
      by_cases ha : a = e
      · rw [ha, hself]
        exact ⟨rfl, rfl⟩
      · rw [hother a ha]
        exact ⟨rfl, rfl⟩
    rcases hs.fired a f (hsame.1 ▸ hf) src ctx body hcause with ⟨i, hi⟩
    exact ⟨i, { hi with call := hsame.2.symm ▸ hi.call, given := hgiven src hi.given }⟩

/-- Two states of a node that differ in the environment and what is about to be sent. -/
structure SameBooks (n n' : RpcNode) : Prop where
  ledger : n'.ledger = n.ledger
  boot : n'.boot = n.boot
  boots : n'.boots = n.boots
  peers : n'.peers = n.peers
  ctxs : n'.ctxs = n.ctxs
  responded : n'.responded = n.responded

theorem SameBooks.onward {n n' : RpcNode} (h : SameBooks n n') : Onward n n' := by
  have hledger := h.ledger
  simp only [RpcNode.ledger, Prod.mk.injEq] at hledger
  exact ⟨h.boot, hledger.2.2.1 ▸ List.prefix_rfl, h.responded ▸ fun _ h => h⟩

theorem Matched.congr {s s' : Net} (h : Matched s) (hsame : ∀ e, SameBooks (s.node e) (s'.node e))
    (hsub : s'.frames ⊆ s.frames) : Matched s' := by
  have hon : ∀ e, Onward (s.node e) (s'.node e) := fun e => (hsame e).onward
  constructor
  case ids => exact fun e => (h.ids e).congr (hsame e).ledger (hsame e).boot (hsame e).boots
  case flying => exact fun m hm => (h.flying m (hsub hm)).onward hon
  case waiting =>
    intro e x f hf
    have hpeer : (s'.node e).peer x = (s.node e).peer x := by
      rw [RpcNode.peer, (hsame e).peers]
      rfl
    rw [hpeer] at hf
    exact ⟨(h.waiting e x f hf).1, (h.waiting e x f hf).2.onward hon⟩
  case held => exact fun e ctx hctx => (h.held e ctx ((hsame e).ctxs ▸ hctx)).onward (hon ctx.src)
  case fired =>
    intro e f hf src ctx body hcause
    have hledger := (hsame e).ledger
    simp only [RpcNode.ledger, Prod.mk.injEq] at hledger
    rw [hledger.2.2.2] at hf
    exact (h.fired e f hf src ctx body hcause).imp fun _ hi => hi.onward hon

theorem matched_of_run {d : Setup} {acts : List Act} {s : Net} (hrun : d.init.exec acts = some s)
    (hK : d.init.Meets Drained acts) : Matched s := by
  refine net_invariant (matched_init d) (fun s hs fs _ hsub h => ?_)
    (fun s e boot _ h hK hfresh => h.reboot hK hfresh) (fun s e env htidy h _ => ?_)
    (fun s e t n n' hin _ hn hmove => hn.move hin hmove) hrun hK
  · exact h.congr (fun _ => ⟨rfl, rfl, rfl, rfl, rfl, rfl⟩) hsub
  · refine h.congr (fun x => ?_) fun m hm => ?_
    · by_cases hx : x = e
      · subst hx
        simp only [Net.put, Function.update_self]
        exact ⟨rfl, rfl, rfl, rfl, rfl, rfl⟩
      · simp only [Net.put, Function.update_of_ne hx]
        exact ⟨rfl, rfl, rfl, rfl, rfl, rfl⟩
    · simpa [Net.put, (htidy e).2.1] using hm

/-- A callback that is given a response is that of the call that the response answers, and no
    other call has the id and the incarnation of this one. -/
def Answers (s : Net) (e : Endpoint) (f : Fired) : Prop :=
  ∀ src ctx body, f.cause = .wire src ctx body → ∃ i, Traced s e f src ctx body i ∧
    ∀ k j, (s.node e).issued[k]? = some j → j.reqId = i.reqId → j.boot = i.boot → k = f.token

/-- In every run in which processes are started again only when nothing of them is left, every
    response that a callback has been given is the answer to its call. -/
theorem responses_match (d : Setup) (acts : List Act) (s : Net) (hrun : d.init.exec acts = some s)
    (hK : d.init.Meets Drained acts) (e : Endpoint) (f : Fired) (hf : f ∈ (s.node e).fired) :
    Answers s e f := by
  have hs := matched_of_run hrun hK
  intro src ctx body hcause
  rcases hs.fired e f hf src ctx body hcause with ⟨i, hi⟩
  refine ⟨i, hi, fun k j hk hreq hboot => ?_⟩
  exact ((hs.ids e).call_eq hi.call hk hi.numbered hboot.symm hreq.symm).symm

/-- The first node calls the second, which responds at once; then it restarts and calls again. -/
def answeredRun : List Act :=
  Three.greets Three.a Three.b ++
    Three.reads 0 [.respond (Three.asked 11) 7 [9], .release (Three.asked 11)] ++
    Three.reads 0 [] ++ [.restart Three.a 44] ++ Three.greets Three.a Three.b ++
    Three.reads 0 [.respond (Three.asked 44) 8 [9], .release (Three.asked 44)] ++ Three.reads 0 []

theorem responses_match_restart : ∃ s, Three.setup.init.exec answeredRun = some s ∧
    Answers s Three.a
      { token := 1, status := 8, boot := 44, cause := .wire Three.b (Three.asked 44) [9] } := by
  have hshows : ∃ s, Three.setup.init.exec answeredRun = some s ∧
      { token := 1, status := 8, boot := 44, cause := .wire Three.b (Three.asked 44) [9] } ∈
        (s.node Three.a).fired := net_shows (by decide +kernel)
  rcases hshows with ⟨s, hrun, hf⟩
  exact ⟨s, hrun, responses_match Three.setup _ s hrun (by decide +kernel) Three.a _ hf⟩

/-- The first node calls the second and restarts. It calls the third, and then the second again.
    Only now the second responds to the first call. -/
def mismatchedRun : List Act :=
  Three.greets Three.a Three.b ++ Three.reads 0 [] ++
    [.restart Three.a 44, Three.call Three.a Three.c, .loseHello 0] ++
    Three.greets Three.a Three.b ++
    [.act Three.b {} [.respond (Three.asked 11) 7 [9]], .frame 1 {} []]

/-- The response is given to the call to the third node. -/
theorem response_mismatched : ∃ s, Three.setup.init.exec mismatchedRun = some s ∧
    ∃ f ∈ (s.node Three.a).fired, ¬ Answers s Three.a f := by
  have hshows : ∃ s, Three.setup.init.exec mismatchedRun = some s ∧
      { token := 1, status := 7, boot := 44, cause := .wire Three.b (Three.asked 11) [9] } ∈
        (s.node Three.a).fired ∧
      (s.node Three.a).issued[1]?.map Issued.dst = some Three.c := net_shows (by decide +kernel)
  rcases hshows with ⟨s, hrun, hf, hdst⟩
  refine ⟨s, hrun, _, hf, fun hanswers => ?_⟩
  rcases hanswers Three.b (Three.asked 11) [9] rfl with ⟨i, hi, _⟩
  rw [hi.call, Option.map_some, Option.some.injEq, hi.dst] at hdst
  exact absurd hdst (by decide)

end Tautq.Rpc
