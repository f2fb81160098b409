import Tautq.Safety.Pinned
import Tautq.Theory.Codec
import Tautq.Theory.Refine

/-!
# Forwarded and Direct Submits

A submit reaches the owner of its key directly or in a frame from a gateway.
The frame is read back as it was written, so the owner does with a forwarded
submit what it would do with the same one of its own client. The two differ in
the callback: one tells the client, the other answers the gateway, which tells
its client the same. So the two nodes that come of it are the same node but
for the callback, while the submit waits, and but for one answer afterwards,
with the same status and id (`Twin`). The replies of the replicas, which
decide a waiting submit, keep it that way.

All strings of a job come from one submit, so frames and copies are bounded by
its limits.

## Main definitions

* `RawParams.toParams`: The submit in a frame.
* `Extra`: A list has one element more than another.
* `Twin`: Two nodes differ in whom they answer one submit.

## Theorems

* `ownerSubmit_twin`: The owner's side of a submit, for both callbacks.
* `onReplicateReply_twin`: The replies of its replicas.
* `forwarded_agrees`: Forwarded and direct submits come to the same.
-/

namespace Tautq

open Status Cluster

/-- The submit that is in a frame. -/
def RawParams.toParams (p : RawParams) : SubmitParams where
  idemKey := p.idemKey
  url := p.url
  body := p.body
  visibilityMs := p.visibilityMs.toNat
  maxAttempts := p.maxAttempts.toNat

/-- A list has one element more than another. -/
def Extra {α : Type} (x : α) (l l' : List α) : Prop :=
  ∃ pre post, l = pre ++ x :: post ∧ l' = pre ++ post

theorem Extra.cons {α : Type} {x : α} {l l' : List α} (h : Extra x l l') (y : α) :
    Extra x (y :: l) (y :: l') := by
  rcases h with ⟨pre, post, rfl, rfl⟩
  exact ⟨y :: pre, post, rfl, rfl⟩

theorem Extra.append {α : Type} {x : α} {l l' : List α} (h : Extra x l l') (ys : List α) :
    Extra x (l ++ ys) (l' ++ ys) := by
  rcases h with ⟨pre, post, rfl, rfl⟩
  exact ⟨pre, post ++ ys, by simp, by simp⟩

/-- A node with other messages, events and waiting submits. -/
def Node.put (n : Node) (outbox : List Packet) (events : List Event)
    (pending : AList (fun _ : JobId => PendingSubmit)) : Node :=
  { n with outbox, events, pendingSubmits := pending }

/-- Two nodes that are the same but for the callback of one submit: the first answers a
    client, the second a request. While the submit waits, its callback is all they differ in;
    afterwards the first has told the client what the second has answered. -/
inductive Twin (id : JobId) (key : Bytes) (ctx : ReqCtx) (n n' : Node) : Prop where
  | waiting (ps : PendingSubmit) (pending : AList (fun _ : JobId => PendingSubmit))
      (client : ps.cb = .client key) (found : n.pendingSubmits.lookup id = some ps)
      (found' : pending.lookup id = some { ps with cb := .reply ctx })
      (others : ∀ i, i ≠ id → pending.lookup i = n.pendingSubmits.lookup i)
      (same : n' = n.put n.outbox n.events pending)
  | answered (st : Status) (told : JobId) (outbox : List Packet) (events : List Event)
      (pending : AList (fun _ : JobId => PendingSubmit))
      (others : ∀ i, pending.lookup i = n.pendingSubmits.lookup i)
      (answer : Extra (.submitAnswered key st told) n.events events)
      (answer' : Extra (.response n.self ctx.src ctx.boot ctx.reqId ctx.asked st (.jobId told))
        outbox n.outbox)
      (owner : st < kTransport) (same : n' = n.put outbox events pending)

variable {id : JobId} {key : Bytes} {ctx : ReqCtx} {n n' : Node}

/-! ### What keeps nodes in agreement -/

/-- A step that neither reads nor writes messages, events and waiting submits. -/
structure Blind (f : Node → Node) : Prop where
  put : ∀ n outbox events pending, f (n.put outbox events pending) = (f n).put outbox events pending
  outbox : ∀ n, (f n).outbox = n.outbox
  events : ∀ n, (f n).events = n.events
  pending : ∀ n, (f n).pendingSubmits = n.pendingSubmits
  self : ∀ n, (f n).self = n.self

theorem Twin.blind {f : Node → Node} (hf : Blind f) (h : Twin id key ctx n n') :
    Twin id key ctx (f n) (f n') := by
  cases h with
  | waiting ps pending client found found' others same =>
    refine .waiting ps pending client (by rw [hf.pending]; exact found) found'
      (by rw [hf.pending]; exact others) ?_
    rw [same, hf.put, hf.outbox, hf.events]
  | answered st told outbox events pending others answer answer' owner same =>
    refine .answered st told outbox events pending (by rw [hf.pending]; exact others)
      (by rw [hf.events]; exact answer) (by rw [hf.outbox, hf.self]; exact answer') owner ?_
    rw [same, hf.put]

/-- A call is sent by both, or fails at both. -/
theorem Twin.call {f : Node → Node} (dst : Endpoint) (body : Request) (k : Cont)
    (hf : ∀ m m', Twin id key ctx m m' → Twin id key ctx (f m) (f m')) (h : Twin id key ctx n n') :
    Twin id key ctx (n.call dst body k f) (n'.call dst body k f) := by
  have hbusy : n'.sched.busy.headD false = n.sched.busy.headD false := by
    cases h with
    | waiting ps pending client found found' others same => rw [same, Node.put]
    | answered st told outbox events pending others answer answer' owner same => rw [same, Node.put]
  rw [Node.call, Node.call, hbusy]
  split
  · exact hf _ _ (h.blind (f := fun n => { n with
      nextReq := n.nextReq + 1, sched := { n.sched with busy := n.sched.busy.tail } })
        ⟨fun _ _ _ _ => rfl, fun _ => rfl, fun _ => rfl, fun _ => rfl, fun _ => rfl⟩)
  · cases h with
    | waiting ps pending client found found' others same =>
      refine .waiting ps pending client found found' others ?_
      rw [same]
      rfl
    | answered st told outbox events pending others answer answer' owner same =>
      refine .answered st told (outbox ++ [.request n.self dst n.boot n.nextReq body])
        events pending others answer (answer'.append _) owner ?_
      rw [same]
      rfl

theorem Twin.foldl {α : Type} {f : Node → α → Node} (l : List α)
    (hf : ∀ m m' a, Twin id key ctx m m' → Twin id key ctx (f m a) (f m' a))
    (h : Twin id key ctx n n') : Twin id key ctx (l.foldl f n) (l.foldl f n') := by
  induction l generalizing n n' with
  | nil => exact h
  | cons a l ih => exact ih (hf n n' a h)

/-- Everything but messages, events and waiting submits is the same. -/
theorem Twin.put (h : Twin id key ctx n n') :
    ∃ outbox events pending, n' = n.put outbox events pending := by
  cases h with
  | waiting ps pending client found found' others same => exact ⟨_, _, pending, same⟩
  | answered st told outbox events pending others answer answer' owner same =>
    exact ⟨outbox, events, pending, same⟩

/-- A step is blind if it leads to the same node whatever it does not read. -/
theorem Blind.of_put {f : Node → Node} (h : ∀ n : Node, ∃ m : Node, m.self = n.self ∧
    ∀ outbox events pending, f (n.put outbox events pending) = m.put outbox events pending) :
    Blind f := by
  have hself : ∀ n m : Node, (∀ outbox events pending, f (n.put outbox events pending) =
      m.put outbox events pending) → f n = m.put n.outbox n.events n.pendingSubmits :=
    fun n m hm => hm n.outbox n.events n.pendingSubmits
  refine ⟨fun n outbox events pending => ?_, fun n => ?_, fun n => ?_, fun n => ?_, fun n => ?_⟩ <;>
    rcases h n with ⟨m, hme, hm⟩ <;> rw [hself n m hm]
  · exact hm outbox events pending
  · rfl
  · rfl
  · rfl
  · exact hme

theorem resyncCountdown_blind (i : JobId) : Blind (fun n => n.resyncCountdown i) := by
  refine Blind.of_put (fun n => ?_)
  cases hleft : n.resyncInflight.lookup i with
  | none =>
    refine ⟨n, rfl, fun outbox events pending => ?_⟩
    have hput : (n.put outbox events pending).resyncInflight.lookup i = none := hleft
    rw [Node.resyncCountdown, hput]
  | some k =>
    by_cases hlast : k - 1 ≤ 0
    · refine ⟨{ n with resyncInflight := n.resyncInflight.erase i }, rfl,
        fun outbox events pending => ?_⟩
      have hput : (n.put outbox events pending).resyncInflight.lookup i = some k := hleft
      rw [Node.resyncCountdown, hput]
      exact if_pos hlast
    · refine ⟨{ n with resyncInflight := n.resyncInflight.insert i (k - 1) }, rfl,
        fun outbox events pending => ?_⟩
      have hput : (n.put outbox events pending).resyncInflight.lookup i = some k := hleft
      rw [Node.resyncCountdown, hput]
      exact if_neg hlast

theorem markReplicaOk_blind (i : JobId) (slot : Nat) : Blind (fun n => n.markReplicaOk i slot) := by
  refine Blind.of_put (fun n => ?_)
  cases hmask : n.repair.lookup i with
  | none =>
    refine ⟨n, rfl, fun outbox events pending => ?_⟩
    have hput : (n.put outbox events pending).repair.lookup i = none := hmask
    rw [Node.markReplicaOk, hput]
  | some mask =>
    by_cases hall : (mask ||| 2 ^ slot) &&& n.wantedMask i = n.wantedMask i
    · refine ⟨{ n with repair := n.repair.erase i }, rfl, fun outbox events pending => ?_⟩
      have hput : (n.put outbox events pending).repair.lookup i = some mask := hmask
      rw [Node.markReplicaOk, hput]
      exact if_pos hall
    · refine ⟨{ n with repair := n.repair.insert i (mask ||| 2 ^ slot) }, rfl,
        fun outbox events pending => ?_⟩
      have hput : (n.put outbox events pending).repair.lookup i = some mask := hmask
      rw [Node.markReplicaOk, hput]
      exact if_neg hall

/-- A resync is asked for by both. -/
theorem Twin.resyncJob (i : JobId) (h : Twin id key ctx n n') :
    Twin id key ctx (n.resyncJob i) (n'.resyncJob i) := by
  have hput := h.put
  rcases hput with ⟨outbox, events, pending, same⟩
  have hinflight : n'.resyncInflight = n.resyncInflight := by rw [same]; rfl
  have hfind : n'.find i = n.find i := by rw [same]; rfl
  have hself : n'.self = n.self := by rw [same]; rfl
  have halive : ∀ e, n'.isAlive e = n.isAlive e := by intro e; rw [same]; rfl
  unfold Node.resyncJob
  rw [hinflight, hfind]
  split
  · exact h
  cases n.find i with
  | none => exact h
  | some j =>
    simp only [hself, halive]
    have hsent : ∀ l : List (Nat × Endpoint), Twin id key ctx
        (l.foldl
        (fun n s => n.call s.2 (.resync i) (.resync i) (fun n => n.onResyncReply i kBusy .empty)) n)
        (l.foldl (fun n s => n.call s.2 (.resync i) (.resync i)
          (fun n => n.onResyncReply i kBusy .empty)) n') := by
      intro l
      refine h.foldl l (fun m m' s hm => hm.call _ _ _ (fun m m' hm => ?_))
      -- A resync that was not sent only counts down.
      have hbusy : ∀ m : Node, m.onResyncReply i kBusy .empty = m.resyncCountdown i := by
        intro m
        rw [Node.onResyncReply, if_pos (by decide)]
      rw [hbusy, hbusy]
      exact hm.blind (resyncCountdown_blind i)
    split
    · exact hsent _
    · exact (hsent _).blind (f := fun n => { n with resyncInflight := n.resyncInflight.insert i _ })
        ⟨fun _ _ _ _ => rfl, fun _ => rfl, fun _ => rfl, fun _ => rfl, fun _ => rfl⟩

/-! ### Answers -/

/-- Where both have the same waiting submit, both answer it. -/
theorem Twin.submitCb (cb : SubmitCb) (st : Status) (i : JobId) (h : Twin id key ctx n n') :
    Twin id key ctx (n.submitCb cb st i) (n'.submitCb cb st i) := by
  cases h with
  | waiting ps pending client found found' others same =>
    subst same
    cases cb with
    | client k => exact .waiting ps pending client found found' others rfl
    | reply c => exact .waiting ps pending client found found' others rfl
  | answered s told outbox events pending others answer answer' owner same =>
    subst same
    cases cb with
    | client k => exact .answered s told outbox _ pending others (answer.cons _) answer' owner rfl
    | reply c => exact .answered s told _ events pending others answer (answer'.append _) owner rfl

/-- The submit is answered: by the one to the client, by the other to the request. -/
theorem Twin.of_answer {pending : AList (fun _ : JobId => PendingSubmit)} {st : Status}
    {told : JobId}
    (hst : st < kTransport) (others : ∀ i, pending.lookup i = n.pendingSubmits.lookup i) :
    Twin id key ctx (n.submitCb (.client key) st told)
      ((n.put n.outbox n.events pending).submitCb (.reply ctx) st told) :=
  .answered st told _ _ pending others ⟨[], n.events, rfl, rfl⟩ ⟨n.outbox, [], rfl,
    (List.append_nil n.outbox).symm⟩ hst rfl

/-- The entries of the two at a place: the same, or those of the one submit. -/
theorem Twin.entries (h : Twin id key ctx n n') (i : JobId) :
    n'.pendingSubmits.lookup i = n.pendingSubmits.lookup i ∨
      (i = id ∧ n'.outbox = n.outbox ∧ n'.events = n.events ∧ ∃ ps, ps.cb = .client key ∧
        n.pendingSubmits.lookup id = some ps ∧
        n'.pendingSubmits.lookup id = some { ps with cb := .reply ctx }) := by
  cases h with
  | waiting ps pending client found found' others same =>
    subst same
    by_cases hi : i = id
    · exact Or.inr ⟨hi, rfl, rfl, ps, client, found, found'⟩
    · exact Or.inl (others i hi)
  | answered st told outbox events pending others answer answer' owner same =>
    subst same
    exact Or.inl (others i)

/-- Both change the entry of a submit that is the same to them. -/
theorem Twin.repend
    {g : AList (fun _ : JobId => PendingSubmit) → AList (fun _ : JobId => PendingSubmit)}
    {i : JobId} (hg : ∀ s x, x ≠ i → (g s).lookup x = s.lookup x)
    (hgi : ∀ s s', (g s').lookup i = (g s).lookup i)
    (hsame : n'.pendingSubmits.lookup i = n.pendingSubmits.lookup i) (h : Twin id key ctx n n') :
    Twin id key ctx { n with pendingSubmits := g n.pendingSubmits }
      { n' with pendingSubmits := g n'.pendingSubmits } := by
  cases h with
  | waiting ps pending client found found' others same =>
    subst same
    -- The two differ at `id`, so this is another submit.
    have hi : id ≠ i := by
      rintro rfl
      have hcb := found'.symm.trans (hsame.trans found)
      rw [Option.some.injEq] at hcb
      rw [← hcb] at client
      cases client
    refine .waiting ps (g pending) client ?_ ?_ (fun x hx => ?_) rfl
    · rw [hg _ _ hi]
      exact found
    · rw [hg _ _ hi]
      exact found'
    · by_cases hxi : x = i
      · rw [hxi]
        exact hgi _ _
      · rw [hg _ _ hxi, hg _ _ hxi]
        exact others x hx
  | answered st told outbox events pending others answer answer' owner same =>
    subst same
    refine .answered st told outbox events (g pending) (fun x => ?_) answer answer' owner rfl
    by_cases hxi : x = i
    · rw [hxi]
      exact hgi _ _
    · rw [hg _ _ hxi, hg _ _ hxi]
      exact others x

/-- A waiting submit is answered by both, and by each to whom it has it from. -/
theorem Twin.submitResult (i : JobId) {st : Status} (hst : st < kTransport)
    (h : Twin id key ctx n n') : Twin id key ctx (n.submitResult i st) (n'.submitResult i st) := by
  rcases h.entries i with hsame | ⟨rfl, _, _, ps, client, found, found'⟩
  · unfold Node.submitResult
    rw [hsame]
    cases n.pendingSubmits.lookup i with
    | none => exact h
    | some ps =>
      refine Twin.submitCb _ _ _ (h.repend (g := fun s => s.erase i) (fun s x hx => ?_)
        (fun s s' => ?_) hsame)
      · exact AList.lookup_erase_ne hx
      · rw [AList.lookup_erase, AList.lookup_erase]
  · rw [submitResult_of_found st found, submitResult_of_found st found', client]
    cases h with
    | waiting ps₀ pending client₀ found₀ found₀' others same =>
      subst same
      refine Twin.of_answer (n := { n with pendingSubmits := n.pendingSubmits.erase i })
        hst (fun x => ?_)
      change (pending.erase i).lookup x = (n.pendingSubmits.erase i).lookup x
      by_cases hx : x = i
      · rw [hx, AList.lookup_erase, AList.lookup_erase]
      · rw [AList.lookup_erase_ne hx, AList.lookup_erase_ne hx]
        exact others x hx
    | answered s told outbox events pending others answer answer' owner same =>
      -- After the answer there is no entry left to differ.
      subst same
      have hcb := found'.symm.trans ((others i).trans found)
      rw [Option.some.injEq] at hcb
      rw [← hcb] at client
      cases client

/-- A reply that is counted for a submit is counted by both. -/
theorem Twin.countReplicate (i : JobId) (good : Bool) {ps ps' : PendingSubmit}
    (hps : n.pendingSubmits.lookup i = some ps) (hps' : n'.pendingSubmits.lookup i = some ps')
    (h : Twin id key ctx n n') :
    Twin id key ctx (n.countReplicate i good ps) (n'.countReplicate i good ps') := by
  have hcounts : ps'.outstanding = ps.outstanding ∧ ps'.needed = ps.needed := by
    rcases h.entries i with hsame | ⟨rfl, _, _, ps₀, _, found, found'⟩
    · rw [hps, hps', Option.some.injEq] at hsame
      rw [hsame]
      exact ⟨rfl, rfl⟩
    · cases hps.symm.trans found
      cases hps'.symm.trans found'
      exact ⟨rfl, rfl⟩
  -- The counted entries are put back first.
  have hback : Twin id key ctx
      { n with pendingSubmits := n.pendingSubmits.insert i { ps with
        outstanding := ps.outstanding - 1, needed := if good then ps.needed - 1 else ps.needed } }
      { n' with pendingSubmits := n'.pendingSubmits.insert i { ps' with
        outstanding := ps.outstanding - 1, needed :=
          if good then ps.needed - 1 else ps.needed } } := by
    rcases h.entries i with hsame | ⟨rfl, hout, hev, ps₀, client, found, found'⟩
    · have heq := hsame
      rw [hps, hps', Option.some.injEq] at heq
      subst heq
      refine h.repend (g := fun s => s.insert i _) (fun s x hx => ?_) (fun s s' => ?_) hsame
      · exact AList.lookup_insert_ne hx
      · rw [AList.lookup_insert, AList.lookup_insert]
    · cases hps.symm.trans found
      cases hps'.symm.trans found'
      rcases h.put with ⟨outbox, events, pending, same⟩
      refine .waiting { ps with outstanding := ps.outstanding - 1
                                needed := if good then ps.needed - 1 else ps.needed }
        (n'.pendingSubmits.insert i _) client (AList.lookup_insert _) (AList.lookup_insert _)
          (fun x hx => ?_) ?_
      · have hsame := (h.entries x).resolve_right (fun hxi => hx hxi.1)
        exact (AList.lookup_insert_ne hx).trans (hsame.trans (AList.lookup_insert_ne hx).symm)
      · subst same
        change outbox = n.outbox at hout
        change events = n.events at hev
        subst hout
        subst hev
        rfl
  unfold Node.countReplicate
  simp only [hcounts.1, hcounts.2]
  generalize (if good then ps.needed - 1 else ps.needed) = needed at hback ⊢
  generalize ps.outstanding - 1 = outstanding at hback ⊢
  split
  · exact hback.submitResult i (by decide)
  · split
    · exact hback.submitResult i (by decide)
    · exact hback

theorem resyncJob_pending (n : Node) (i : JobId) :
    (n.resyncJob i).pendingSubmits = n.pendingSubmits :=
  (@resyncJob_spec default n n i).2.2

/-- A replicate reply, whichever submit it is about. -/
theorem onReplicateReply_twin (i : JobId) (slot : Nat) (st : Status) (h : Twin id key ctx n n') :
    Twin id key ctx (n.onReplicateReply i slot st) (n'.onReplicateReply i slot st) := by
  unfold Node.onReplicateReply
  generalize decide (st = kCreated ∨ st = kDuplicate) = good
  -- The confirmation or the resync comes first, and leaves the waiting submits alone.
  have hmid : ∃ m m', (if good = true then n.markReplicaOk i slot
        else if st = kStaleEpoch then n.resyncJob i else n) = m ∧
      (if good = true then n'.markReplicaOk i slot
        else if st = kStaleEpoch then n'.resyncJob i else n') = m' ∧ Twin id key ctx m m' ∧
      m.pendingSubmits = n.pendingSubmits ∧ m'.pendingSubmits = n'.pendingSubmits := by
    by_cases hgood : good = true
    · rw [if_pos hgood, if_pos hgood]
      have hblind := markReplicaOk_blind i slot
      exact ⟨_, _, rfl, rfl, h.blind hblind, hblind.pending n, hblind.pending n'⟩
    · rw [if_neg hgood, if_neg hgood]
      by_cases hstale : st = kStaleEpoch
      · rw [if_pos hstale, if_pos hstale]
        exact ⟨_, _, rfl, rfl, h.resyncJob i, resyncJob_pending n i, resyncJob_pending n' i⟩
      · rw [if_neg hstale, if_neg hstale]
        exact ⟨n, n', rfl, rfl, h, rfl, rfl⟩
  rcases hmid with ⟨m, m', hm, hm', hagree, hpend, hpend'⟩
  simp only [hm, hm']
  have hnone : n.pendingSubmits.lookup i = none ↔ n'.pendingSubmits.lookup i = none := by
    rcases h.entries i with hsame | ⟨rfl, _, _, ps, _, found, found'⟩
    · rw [hsame]
    · rw [found, found']
      simp
  cases hps : n.pendingSubmits.lookup i with
  | none =>
    rw [hnone.mp hps]
    exact hagree
  | some ps =>
    cases hps' : n'.pendingSubmits.lookup i with
    | none => exact absurd (hnone.mpr hps') (by rw [hps]; simp)
    | some ps' => exact hagree.countReplicate i good (hpend ▸ hps) (hpend' ▸ hps')

/-- Send the copy to a slot: by both, or neither. -/
theorem Twin.sendReplicate (i : JobId) (slot : Nat) (h : Twin id key ctx n n') :
    Twin id key ctx (n.sendReplicate i slot) (n'.sendReplicate i slot) := by
  rcases h.put with ⟨outbox, events, pending, same⟩
  have hfind : n'.find i = n.find i := by rw [same]; rfl
  unfold Node.sendReplicate
  rw [hfind]
  cases n.find i with
  | none => exact h
  | some j => exact h.call _ _ _ (fun m m' hm => onReplicateReply_twin i slot kBusy hm)

/-- The bookkeeping of a new job. -/
theorem trackSubmit_twin (n : Node) (id : JobId) (peers : List (Nat × Endpoint)) (key : Bytes)
    (ctx : ReqCtx) : Twin id key ctx (n.trackSubmit id peers (.client key))
      (n.trackSubmit id peers (.reply ctx)) := by
  have hstart : ∀ needed outstanding : Int, Twin id key ctx
      { n with
        repair := n.repair.insert id 0
        pendingSubmits := n.pendingSubmits.insert id { cb := .client key, needed, outstanding } }
      { n with
        repair := n.repair.insert id 0
        pendingSubmits :=
          n.pendingSubmits.insert id { cb := .reply ctx, needed, outstanding } } := by
    intro needed outstanding
    refine .waiting { cb := .client key, needed, outstanding }
      (n.pendingSubmits.insert id { cb := .reply ctx, needed, outstanding }) rfl
      (AList.lookup_insert _) (AList.lookup_insert _) (fun x hx => ?_) rfl
    exact (AList.lookup_insert_ne hx).trans (AList.lookup_insert_ne hx).symm
  unfold Node.trackSubmit
  simp only
  split
  · exact (hstart _ _).submitResult id (by decide)
  · exact hstart _ _

/-- The owner mints the same job for both, and answers both alike. -/
theorem ownerSubmit_twin (n : Node) (p : SubmitParams) (ctx : ReqCtx) :
    ∃ id, Twin id p.idemKey ctx (n.ownerSubmit p (.client p.idemKey))
    (n.ownerSubmit p (.reply ctx)) := by
  unfold Node.ownerSubmit
  cases n.store.table.findByIdem p.idemKey with
  | some existing => exact ⟨existing.id, Twin.of_answer (by decide) (fun _ => rfl)⟩
  | none =>
    simp only
    split
    · exact ⟨{}, Twin.of_answer (by decide) (fun _ => rfl)⟩
    have hout :=
      commit_outcome ({ n with nextJobSeq := n.nextJobSeq + 1 } : Node) (.submit (n.mintJob p))
    generalize ({ n with nextJobSeq := n.nextJobSeq + 1 } : Node).commit (.submit (n.mintJob p)) =
      c at hout ⊢
    refine ⟨(n.mintJob p).id, ?_⟩
    cases hout with
    | ok sched open_ =>
      simp only [if_true]
      have hfind : (n.store.append (.submit (n.mintJob p))).table.find (n.mintJob p).id =
          some (n.mintJob p) := find_append_submit _ _
      unfold Node.startReplication
      rw [Node.find, hfind]
      exact (trackSubmit_twin _ _ _ _ _).foldl _ (fun m m' s hm => hm.sendReplicate _ _)
    | failed s sched attempt closed =>
      simp only [Bool.false_eq_true, if_false]
      exact Twin.of_answer (by decide) (fun _ => rfl)

/-! ### Sizes -/

theorem SubmitParams.admitted_fits {p : SubmitParams} (h : p.admitted = true) :
    p.idemKey.length ≤ kMaxIdemKey ∧ p.url.length ≤ kMaxUrl ∧ p.body.length ≤ kMaxJobBody := by
  simp only [admitted, fits, Bool.and_eq_true, decide_eq_true_eq] at h
  exact ⟨h.2.1.1, h.2.1.2, h.2.2⟩

/-- The strings of a copy anywhere are within the limits of a submit. -/
theorem Copied.fits {K : Cond} {d : Deployment} {c : Cluster} {j : Job} (hreach : Reach K d c)
    (h : Copied c.node j) :
    j.idemKey.length ≤ kMaxIdemKey ∧ j.url.length ≤ kMaxUrl ∧ j.body.length ≤ kMaxJobBody := by
  rcases h.born hreach with ⟨hborn, hregular⟩
  rcases hborn.birth with ⟨b, ⟨e, he⟩, hsame, hbody⟩
  rcases ((asked (S := fun p => p.admitted = true) (fun _ _ _ _ _ _ h => h)).reach hreach e).minted
    b he with ⟨p, hp, hurl, hpbody, hkey⟩
  rcases SubmitParams.admitted_fits hp with ⟨hk, hu, hb⟩
  rw [hsame.idemKey, hsame.url, hkey, hurl]
  refine ⟨hk, hu, ?_⟩
  rcases hbody with hdone | hbody
  · rw [hregular.emptied hdone]
    exact Nat.zero_le _
  · rw [hbody, hpbody]
    exact hb

/-- For every submit that is admitted: its frame is read back as it was written, and fits a
    request. In every state the owner comes to the same with it as with the same submit of
    its own client, the waiting callback or one answer apart; so do the replies to the copies
    it sends. A gateway tells its client what the owner answers. And every copy of a job that
    is anywhere in a run fits a request when it is written out. -/
theorem forwarded_agrees (p : RawParams) (hp : p.toParams.admitted = true) :
    decodeParams (encodeParams p) = some p ∧ (encodeParams p).length ≤ kMaxRpcBody ∧
    (∀ (n : Node) (ctx : ReqCtx), Ring.ownerFor p.idemKey n.members = n.self →
      ∃ id, Twin id p.idemKey ctx (n.submit p.toParams) (n.handleFwdSubmit ctx p.toParams)) ∧
    (∀ id ctx n n', Twin id p.idemKey ctx n n' → n'.store = n.store ∧ ∀ i slot st,
      Twin id p.idemKey ctx (n.onReplicateReply i slot st) (n'.onReplicateReply i slot st)) ∧
    (∀ (n : Node) (st : Status) (id : JobId), st < kTransport →
      n.onFwdSubmitReply p.idemKey st (.jobId id) = n.emit (.submitAnswered p.idemKey st id)) ∧
    ∀ (d : Deployment) (acts : List Act) (c : Cluster), d.init.exec acts = some c →
      ∀ J, Copied c.node J → ∀ j : RawJob, j.Reads J → (putJob j).length ≤ kMaxRpcBody := by
  have hstrings : p.idemKey.length ≤ kMaxIdemKey ∧ p.url.length ≤ kMaxUrl ∧
      p.body.length ≤ kMaxJobBody := SubmitParams.admitted_fits hp
  rcases hstrings with ⟨hk, hu, hb⟩
  have hlimits : 67 + kMaxIdemKey + kMaxUrl + kMaxJobBody ≤ kMaxRpcBody := by decide
  refine ⟨decodeParams_encodeParams p hk hu hb, ?_, ?_, ?_, ?_, ?_⟩
  · rw [length_encodeParams]
    omega
  · intro n ctx howner
    have hfits : p.toParams.fits = true := by
      rw [SubmitParams.admitted, Bool.and_eq_true] at hp
      exact hp.2
    have hsubmit : n.submit p.toParams = n.ownerSubmit p.toParams (.client p.toParams.idemKey) := by
      rw [Node.submit, if_neg (by rw [hp]; simp)]
      exact if_pos howner
    rw [hsubmit, Node.handleFwdSubmit, if_neg (by rw [hfits]; simp)]
    exact ownerSubmit_twin n p.toParams ctx
  · intro id ctx n n' h
    refine ⟨?_, fun i slot st => onReplicateReply_twin i slot st h⟩
    rcases h.put with ⟨outbox, events, pending, same⟩
    rw [same]
    rfl
  · intro n st id hst
    rw [Node.onFwdSubmitReply, if_pos hst]
    rfl
  · intro d acts c hrun J hJ j hj
    have hreach := Reach.of_run hrun (meets_true _ acts)
    rcases hJ.fits hreach with ⟨hk, hu, hb⟩
    rw [hj.idemKey] at hk
    rw [hj.url] at hu
    rw [hj.body] at hb
    rw [length_putJob]
    omega

/-- A submit with a maximal body; one of its copies is stored. -/
theorem forwarded_agrees_maximal :
    let p : RawParams := ⟨[1], [2, 3], List.replicate 640 7, 30000, 5⟩
    let n : Node := { Trio.cluster.init.node Trio.a with peers := [Trio.b, Trio.c] }
    let m := n.handleFwdSubmit ⟨Trio.b, 1, 1, .fwdSubmit p.toParams⟩ p.toParams
    p.toParams.admitted = true ∧ decodeParams (encodeParams p) = some p ∧
      (m.onReplicateReply Trio.job 1 kCreated).store =
        ((n.submit p.toParams).onReplicateReply Trio.job 1 kCreated).store := by
  intro p n m
  have hp : p.toParams.admitted = true := by decide +kernel
  have hall := forwarded_agrees p hp
  rcases hall.2.2.1 n ⟨Trio.b, 1, 1, .fwdSubmit p.toParams⟩ (by decide +kernel) with ⟨id, htwin⟩
  have hreplied := (hall.2.2.2.1 _ _ _ _ htwin).2 Trio.job 1 kCreated
  exact ⟨hp, hall.1, (hall.2.2.2.1 _ _ _ _ hreplied).1⟩

end Tautq
