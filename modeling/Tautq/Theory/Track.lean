import Tautq.Theory.Tokens

/-!
# What a Node Keeps Track Of

A job a node owns is leased from its queue, expires by its deadline, and is
taken over by its claim. Queue, deadlines and claims are in memory and kept
apart from the stored copies, so each handler has to leave every job it touches
with one of the three. Between a commit and the bookkeeping for it a handler
leaves its own job without; the statements here are about all other jobs then
(`Tended`), and about the job itself once the handler is through.

Most of what a node does is not about any of this: it sends, answers, counts
and adds to the queue. Such steps are `Eases`, and they compose.

A node whose log has stopped is exempt. It commits nothing more, and the next
start sets up all jobs from the log.

## Main definitions

* `Node.tracks`: A job the node owns is queued, armed, claimed or being leased.
* `Tended`: All jobs but some are tracked.
* `Eases`: A step that takes nothing out of the bookkeeping.

## Theorems

* `settle_tended`: Deciding a commit keeps every job tracked.
* `quorumCommit_tended`, `quorumCommit_terminal`, `quorumCommit_lease`: Starting a
  transition.
-/

namespace Tautq

open Status

/-- A ready copy of the node's own is queued or claimed. -/
def Node.queues (n : Node) (id : JobId) : Prop :=
  ∀ j, n.find id = some j → j.owner = n.self → j.state = .ready → id ∈ n.ready ∨ id ∈ n.claims

/-- A leased copy of the node's own has a deadline, a claim, or a commit of its lease that is
    not decided. -/
def Node.arms (n : Node) (id : JobId) : Prop :=
  ∀ j, n.find id = some j → j.owner = n.self → j.state = .leased →
    id ∈ n.leaseDeadline ∨ id ∈ n.claims ∨ ∃ epoch leaseSeq, (id, epoch, leaseSeq) ∈ n.leasing

/-- A copy of the node's own is queued or armed as its state demands. -/
def Node.tracks (n : Node) (id : JobId) : Prop :=
  n.queues id ∧ n.arms id

/-- While the log works, all jobs but some are tracked. -/
def Tended (skip : JobId → Prop) (n : Node) : Prop :=
  n.store.failed = false → ∀ id, ¬ skip id → n.tracks id

/-- A step that stores nothing and takes nothing out of the bookkeeping. -/
structure Eases (n n' : Node) : Prop where
  self : n'.self = n.self
  store : n'.store = n.store
  qstates : n'.qstates = n.qstates
  ready : n.ready ⊆ n'.ready
  claims : ∀ id, id ∈ n.claims → id ∈ n'.claims
  deadlines : ∀ id, id ∈ n.leaseDeadline → id ∈ n'.leaseDeadline

namespace Eases

variable {n n₁ n₂ : Node}

theorem refl (n : Node) : Eases n n :=
  ⟨rfl, rfl, rfl, List.Subset.refl _, fun _ h => h, fun _ h => h⟩

theorem trans (h : Eases n n₁) (h' : Eases n₁ n₂) : Eases n n₂ where
  self := h'.self.trans h.self
  store := h'.store.trans h.store
  qstates := h'.qstates.trans h.qstates
  ready := fun _ hid => h'.ready (h.ready hid)
  claims id hid := h'.claims id (h.claims id hid)
  deadlines id hid := h'.deadlines id (h.deadlines id hid)

theorem after (h' : Eases n₁ n₂) (h : Eases n n₁) : Eases n n₂ :=
  h.trans h'

theorem of_eq (self : n₁.self = n.self) (store : n₁.store = n.store)
    (qstates : n₁.qstates = n.qstates) (ready : n₁.ready = n.ready) (claims : n₁.claims = n.claims)
    (deadlines : n₁.leaseDeadline = n.leaseDeadline) : Eases n n₁ :=
  ⟨self, store, qstates, by rw [ready]; exact List.Subset.refl _,
    by simp [claims], by simp [deadlines]⟩

theorem foldl {α : Type} {f : Node → α → Node} (h : ∀ m a, Eases m (f m a))
    (l : List α) (n : Node) : Eases n (l.foldl f n) := by
  induction l generalizing n with
  | nil => exact .refl n
  | cons a l ih => exact (h n a).trans (ih (f n a))

theorem find (h : Eases n n₁) (id : JobId) : n₁.find id = n.find id := by
  rw [Node.find, h.store, Node.find]

theorem leasing (h : Eases n n₁) : n₁.leasing = n.leasing := by
  rw [Node.leasing, h.qstates, Node.leasing]

theorem queues (h : Eases n n₁) {id : JobId} (hn : n.queues id) : n₁.queues id := by
  intro j hj ho hs
  rw [h.find] at hj
  rw [h.self] at ho
  rcases hn j hj ho hs with hr | hc
  · exact Or.inl (h.ready hr)
  · exact Or.inr (h.claims id hc)

theorem arms (h : Eases n n₁) {id : JobId} (hn : n.arms id) : n₁.arms id := by
  intro j hj ho hs
  rw [h.find] at hj
  rw [h.self] at ho
  rw [h.leasing]
  rcases hn j hj ho hs with hd | hc | hl
  · exact Or.inl (h.deadlines id hd)
  · exact Or.inr (Or.inl (h.claims id hc))
  · exact Or.inr (Or.inr hl)

theorem tracks (h : Eases n n₁) {id : JobId} (hn : n.tracks id) : n₁.tracks id :=
  ⟨h.queues hn.1, h.arms hn.2⟩

theorem tended (h : Eases n n₁) {skip : JobId → Prop} (hn : Tended skip n) : Tended skip n₁ := by
  intro hopen id hid
  rw [h.store] at hopen
  exact h.tracks (hn hopen id hid)

end Eases

theorem Tended.mono {skip skip' : JobId → Prop} {n : Node} (h : Tended skip n)
    (hs : ∀ id, skip id → skip' id) : Tended skip' n :=
  fun hopen id hid => h hopen id (fun hskip => hid (hs id hskip))

/-! ### Steps that ease -/

section Easing

variable {n : Node}

theorem respond_eases (ctx : ReqCtx) (st : Status) (body : Reply) :
    Eases n (n.respond ctx st body) :=
  .of_eq rfl rfl rfl rfl rfl rfl

theorem emit_eases (e : Event) : Eases n (n.emit e) :=
  .of_eq rfl rfl rfl rfl rfl rfl

theorem submitCb_eases (cb : SubmitCb) (st : Status) (id : JobId) :
    Eases n (n.submitCb cb st id) := by
  cases cb <;> exact .of_eq rfl rfl rfl rfl rfl rfl

theorem ackCb_eases (cb : AckCb) (id : JobId) (success : Bool) (st : Status) :
    Eases n (n.ackCb cb id success st) := by
  cases cb <;> exact .of_eq rfl rfl rfl rfl rfl rfl

theorem walkJobs_eases (keys : List JobId) : Eases n (n.walkJobs keys).2 :=
  .of_eq rfl rfl rfl rfl rfl rfl

theorem walkCalls_eases (keys : List Nat) : Eases n (n.walkCalls keys).2 :=
  .of_eq rfl rfl rfl rfl rfl rfl

theorem insertClaim_eases (id : JobId) (st : ClaimState) :
    Eases n { n with claims := n.claims.insert id st } :=
  ⟨rfl, rfl, rfl, List.Subset.refl _, fun _ h => by simp [AList.mem_insert, h], fun _ h => h⟩

theorem insertDeadline_eases (id : JobId) (t : Time) :
    Eases n { n with leaseDeadline := n.leaseDeadline.insert id t } :=
  ⟨rfl, rfl, rfl, List.Subset.refl _, fun _ h => h, fun _ h => by simp [AList.mem_insert, h]⟩

theorem pushReady_eases (id : JobId) : Eases n { n with ready := n.ready ++ [id] } :=
  ⟨rfl, rfl, rfl, List.subset_append_left _ _, fun _ h => h, fun _ h => h⟩

theorem call_eases (dst : Endpoint) (body : Request) (k : Cont) {onBusy : Node → Node}
    (h : ∀ m, Eases m (onBusy m)) : Eases n (n.call dst body k onBusy) := by
  unfold Node.call
  split
  · exact (h _).after (.of_eq rfl rfl rfl rfl rfl rfl)
  · exact .of_eq rfl rfl rfl rfl rfl rfl

theorem resyncCountdown_eases (id : JobId) : Eases n (n.resyncCountdown id) := by
  unfold Node.resyncCountdown
  split
  · exact .refl n
  · split <;> exact .of_eq rfl rfl rfl rfl rfl rfl

/-- A resync reply that brings nothing. -/
theorem onResyncReply_eases (id : JobId) {code : Status} (hcode : code ≠ kCreated) (body : Reply) :
    Eases n (n.onResyncReply id code body) := by
  unfold Node.onResyncReply
  simp only [if_pos hcode]
  exact resyncCountdown_eases id

theorem resyncJob_eases (id : JobId) : Eases n (n.resyncJob id) := by
  unfold Node.resyncJob
  split
  · exact .refl n
  · split
    · exact .refl n
    · have hcalls : ∀ (l : List (Nat × Endpoint)) (m : Node), Eases m (l.foldl (fun n s =>
          n.call s.2 (.resync id) (.resync id) (fun n => n.onResyncReply id kBusy .empty)) m) :=
        fun l m =>
          .foldl (fun m s => call_eases _ _ _ (fun m => onResyncReply_eases id (by decide) _)) l m
      simp only
      split
      · exact hcalls _ _
      · exact (hcalls _ _).trans (.of_eq rfl rfl rfl rfl rfl rfl)

theorem markReplicaOk_eases (id : JobId) (slot : Nat) : Eases n (n.markReplicaOk id slot) := by
  unfold Node.markReplicaOk
  split
  · exact .refl n
  · simp only
    split <;> exact .of_eq rfl rfl rfl rfl rfl rfl

theorem submitResult_eases (id : JobId) (st : Status) : Eases n (n.submitResult id st) := by
  unfold Node.submitResult
  split
  · exact .refl n
  · exact (submitCb_eases _ _ _).after (.of_eq rfl rfl rfl rfl rfl rfl)

theorem countReplicate_eases (id : JobId) (ok : Bool) (ps : PendingSubmit) :
    Eases n (n.countReplicate id ok ps) := by
  unfold Node.countReplicate
  have hins : ∀ ps', Eases n { n with pendingSubmits := n.pendingSubmits.insert id ps' } :=
    fun _ => .of_eq rfl rfl rfl rfl rfl rfl
  dsimp only
  split_ifs <;> first | exact (hins _).trans (submitResult_eases _ _) | exact hins _

theorem onReplicateReply_eases (id : JobId) (slot : Nat) (st : Status) :
    Eases n (n.onReplicateReply id slot st) := by
  unfold Node.onReplicateReply
  have hmid : ∀ ok : Bool, Eases n (if ok then n.markReplicaOk id slot
      else if st = kStaleEpoch then n.resyncJob id else n) := by
    intro ok
    split
    · exact markReplicaOk_eases _ _
    · split
      · exact resyncJob_eases _
      · exact .refl n
  simp only
  split
  · exact hmid _
  · exact (hmid _).trans (countReplicate_eases _ _ _)

theorem sendReplicate_eases (id : JobId) (slot : Nat) : Eases n (n.sendReplicate id slot) := by
  unfold Node.sendReplicate
  split
  · exact .refl n
  · exact call_eases _ _ _ (fun m => onReplicateReply_eases _ _ _)

theorem startReplication_eases (id : JobId) (cb : SubmitCb) :
    Eases n (n.startReplication id cb) := by
  unfold Node.startReplication
  split
  · exact .refl n
  · refine Eases.trans ?_ (.foldl (fun m s => sendReplicate_eases _ _) _ _)
    unfold Node.trackSubmit
    simp only
    split
    · exact (submitResult_eases _ _).after (.of_eq rfl rfl rfl rfl rfl rfl)
    · exact .of_eq rfl rfl rfl rfl rfl rfl

theorem queryStatusTarget_eases (id : JobId) (targets : List Endpoint)
    (best : Option Job) (n : Node) : Eases n (Node.queryStatusTarget id targets best n) := by
  induction targets generalizing best n with
  | nil => exact emit_eases _
  | cons target rest ih =>
    unfold Node.queryStatusTarget
    split
    · exact ih _ n
    · exact call_eases _ _ _ (fun m => ih best m)

theorem claimSend_eases (id : JobId) (dst : Endpoint) : Eases n (n.claimSend id dst) := by
  unfold Node.claimSend
  split
  · exact .refl n
  · refine call_eases _ _ _ (fun m => ?_)
    unfold Node.onClaimReply
    split
    · exact .refl m
    · rw [if_neg (by decide), if_neg (by decide), if_neg (by decide)]
      exact .refl m

theorem retryClaim_eases (id : JobId) : Eases n (n.retryClaim id) := by
  unfold Node.retryClaim
  split
  · exact .refl n
  · have hins : ∀ st, Eases n { n with claims := n.claims.insert id st } := fun st =>
      ⟨rfl, rfl, rfl, List.Subset.refl _, fun id' h => by simp [AList.mem_insert, h], fun _ h => h⟩
    simp only
    split
    · exact hins _
    · exact (hins _).trans (.foldl (fun m s => claimSend_eases _ _) _ _)

theorem repairJob_eases (id : JobId) : Eases n (n.repairJob id) := by
  unfold Node.repairJob
  split
  · exact .refl n
  · split
    · exact .refl n
    · split
      · exact .refl n
      · exact .foldl (fun m s => sendReplicate_eases _ _) _ _

theorem handoff_eases (id : JobId) : Eases n (n.handoff id) := by
  unfold Node.handoff
  split
  · exact .refl n
  · split
    · exact .refl n
    · exact call_eases _ _ _ (fun m => .refl m)

theorem repairTick_eases : Eases n n.repairTick := by
  unfold Node.repairTick
  split
  · exact .refl n
  · exact (Eases.foldl (fun m id => repairJob_eases id) _ _).after (.of_eq rfl rfl rfl rfl rfl rfl)

theorem claimTick_eases : Eases n n.claimTick := by
  unfold Node.claimTick
  split
  · exact .refl n
  · exact (Eases.foldl (fun m id => retryClaim_eases id) _ _).after (.of_eq rfl rfl rfl rfl rfl rfl)

theorem drainTick_eases : Eases n n.drainTick := by
  unfold Node.drainTick
  split
  · exact .refl n
  · have hfold : ∀ (l : List JobId) (m : Node), Eases m (l.foldl Node.handoff m) :=
      fun l m => .foldl (fun m id => handoff_eases id) l m
    have hdone : ∀ m : Node, Eases m (({ m with drainCb := false } : Node).emit .drained) :=
      fun m => .of_eq rfl rfl rfl rfl rfl rfl
    simp only
    split
    · refine Eases.trans ?_ (hdone _)
      exact (hfold _ _).after (.of_eq rfl rfl rfl rfl rfl rfl)
    · exact (hfold _ _).after (.of_eq rfl rfl rfl rfl rfl rfl)

theorem onPeerAlive_eases (p : Endpoint) : Eases n (n.onPeerAlive p) := by
  have hone : ∀ (m : Node) (id : JobId), Eases m { m with repair := m.repair.insert id 0 } :=
    fun _ _ => .of_eq rfl rfl rfl rfl rfl rfl
  exact (Eases.foldl hone _ _).after (walkJobs_eases _)

end Easing

/-! ### Records -/

section Records

variable {n : Node} {skip : JobId → Prop}

/-- A commit that leaves the log working was durable. -/
theorem commit_open {r : Record} (h : (n.commit r).1.store.failed = false) :
    n.store.failed = false ∧ (n.commit r).2 = true ∧ (n.commit r).1.store = n.store.append r := by
  have hout := commit_outcome n r
  generalize n.commit r = c at h hout ⊢
  cases hout with
  | ok sched open_ => exact ⟨open_, rfl, rfl⟩
  | failed s sched attempt closed => exact absurd (closed.symm.trans h) (by simp)

theorem find_commit {r : Record} (h : (n.commit r).1.store.failed = false) (id : JobId) :
    (n.commit r).1.find id = if r.jobId = id then r.effect (n.find id) else n.find id := by
  rw [Node.find, (commit_open h).2.2, Store.append, Table.find_apply, Node.find]

/-- A commit leaves the other jobs as they are. -/
theorem Tended.commit (h : Tended skip n) (r : Record) :
    Tended (fun id => skip id ∨ id = r.jobId) (n.commit r).1 := by
  intro hopen id hid
  have hne : r.jobId ≠ id := fun he => hid (Or.inr he.symm)
  have hn := h (commit_open hopen).1 id (fun hs => hid (Or.inl hs))
  refine ⟨fun j hj => hn.1 j ?_, fun j hj => hn.2 j ?_⟩ <;>
    rwa [find_commit hopen, if_neg hne] at hj

/-- The job a handler left aside, brought back. -/
theorem Tended.restore {id : JobId} (h : Tended (fun x => skip x ∨ x = id) n)
    (hid : n.store.failed = false → ¬ skip id → n.tracks id) : Tended skip n := by
  intro hopen id' hskip
  by_cases he : id' = id
  · subst he
    exact hid hopen hskip
  · exact h hopen id' (fun hs => hs.elim hskip he)

end Records

/-! ### Deciding a commit -/

section Settle

variable {n : Node} {skip : JobId → Prop} {id : JobId}

/-- Queueing a job that is not leased tracks it. -/
theorem Tended.requeue (h : Tended (fun x => skip x ∨ x = id) n)
    (hid : n.store.failed = false → ∀ j, n.find id = some j → j.state ≠ .leased) (t : Time) :
    Tended skip (n.requeueReady id t) := by
  have hup : Eases n (n.requeueReady id t) :=
    ⟨rfl, rfl, rfl, List.subset_append_left _ _, fun _ h => h, fun _ h => h⟩
  refine (hup.tended h).restore (fun hopen _ => ⟨fun j hj _ _ => ?_, fun j hj _ hs => ?_⟩)
  · exact Or.inl (by simp [Node.requeueReady])
  · exact absurd hs (hid hopen j hj)

/-- An expiry leaves no lease it names. -/
theorem on_expire_self (l : Job) :
    ((Record.expire id l.epoch l.leaseSeq).on l).state ≠ .leased := by
  simp only [Record.on, le_refl, true_and, and_true]
  split
  · simp
  · assumption

/-- A decided lease has its deadline, or is back in the queue. -/
theorem leaseDone_tended (h : Tended (fun x => skip x ∨ x = id) n)
    (hq : n.store.failed = false → ¬ skip id → n.queues id) (epoch leaseSeq worker : Nat)
    (ok : Bool) : Tended skip (n.leaseDone id epoch leaseSeq worker ok) := by
  unfold Node.leaseDone
  split
  · rename_i hnone
    refine (emit_eases _).tended (h.restore (fun _ _ => ⟨fun j hj => ?_, fun j hj => ?_⟩)) <;>
      rw [hnone] at hj <;> cases hj
  · rename_i l hl
    split
    · refine (emit_eases _).tended ?_
      have hup :
          Eases n { n with leaseDeadline := n.leaseDeadline.insert id (n.now + l.visibilityMs) } :=
        ⟨rfl, rfl, rfl, List.Subset.refl _, fun _ h => h, fun _ h => by simp [AList.mem_insert, h]⟩
      refine (hup.tended h).restore (fun hopen hs => ⟨hup.queues (hq hopen hs), fun j _ _ _ => ?_⟩)
      exact Or.inl (by simp [AList.mem_insert])
    · refine (emit_eases _).tended (Tended.requeue ((h.commit _).mono ?_) (fun hopen j hj => ?_) _)
      · rintro x ((hx | hx) | hx)
        · exact Or.inl hx
        · exact Or.inr hx
        · exact Or.inr hx
      · rw [find_commit hopen, Record.jobId, if_pos rfl, hl] at hj
        obtain rfl : _ = j := Option.some.inj hj
        exact on_expire_self l

/-- An entry of a list is read off after another one, or this one, was replaced. -/
theorem mem_filterMap_set {α β : Type} (f : α → Option β) {l : List α} {q : Nat} {x x' : α} {b : β}
    (hx : l[q]? = some x) (hf : f x = some b → f x' = some b) (h : b ∈ l.filterMap f) :
    b ∈ (l.set q x').filterMap f := by
  rcases List.mem_filterMap.mp h with ⟨a, ha, hb⟩
  rcases List.mem_iff_getElem?.mp ha with ⟨i, hi⟩
  by_cases he : q = i
  · subst he
    obtain rfl : x = a := Option.some.inj (hx.symm.trans hi)
    have hlt : q < l.length := (List.getElem?_eq_some_iff.mp hx).1
    exact List.mem_filterMap.mpr ⟨x', List.mem_set hlt x', hf hb⟩
  · refine List.mem_filterMap.mpr ⟨a, List.mem_of_getElem? (i := i) ?_, hb⟩
    rw [List.getElem?_set_ne he, hi]

/-- A job is tracked as long as its token is there. -/
theorem tracks_of_tokens {qs : List QState} (h : n.tracks id)
    (hq : ∀ e k, (id, e, k) ∈ n.leasing → (id, e, k) ∈ qs.filterMap QState.token) :
    ({ n with qstates := qs } : Node).tracks id := by
  refine ⟨h.1, fun j hj ho hl => ?_⟩
  rcases h.2 j hj ho hl with hd | hc | ⟨e, k, hm⟩
  · exact Or.inl hd
  · exact Or.inr (Or.inl hc)
  · exact Or.inr (Or.inr ⟨e, k, hq e k hm⟩)

/-- Changing the counters of a commit affects the job whose token it drops. -/
theorem Tended.set_qstate {skip' : JobId → Prop} {q : Nat} {s s' : QState} (h : Tended skip n)
    (hs : n.qstates[q]? = some s) (hmono : ∀ x, skip x → skip' x)
    (htok : ∀ x, s.token = some x → s'.token = some x ∨ skip' x.1) :
    Tended skip' { n with qstates := n.qstates.set q s' } := by
  intro hopen x hx
  refine tracks_of_tokens (h hopen x (fun hskip => hx (hmono x hskip))) (fun e k hm => ?_)
  exact mem_filterMap_set QState.token hs (fun ht => (htok _ ht).resolve_right hx) hm

/-- Firing a commit, with its callback. -/
theorem fire_tended {q : Nat} {s s' : QState} (h : Tended skip n) (hs : n.qstates[q]? = some s)
    (hdone : s'.done = s.done) (ok : Bool) :
    Tended skip (({ n with qstates := n.qstates.set q s' } : Node).fireDone s'.done ok) := by
  cases hd : s'.done with
  | ignore =>
    refine h.set_qstate hs (fun _ hx => hx) (fun x hx => ?_)
    simp [QState.token, ← hdone, hd] at hx
  | ack id cb =>
    refine (ackCb_eases _ _ _ _).tended (h.set_qstate hs (fun _ hx => hx) (fun x hx => ?_))
    simp [QState.token, ← hdone, hd] at hx
  | lease id epoch leaseSeq worker =>
    -- Its own job may lose the token; the callback sees to it.
    refine leaseDone_tended (h.set_qstate hs (fun _ hx => Or.inl hx) (fun x hx => ?_))
      (fun hopen hskip => (h hopen id hskip).1) _ _ _ _
    refine Or.inr (Or.inr ?_)
    simp only [QState.token, ← hdone, hd] at hx
    split at hx
    · rename_i hl
      cases hl
      cases hx
      rfl
    · cases hx

/-- Keeping the counters of a commit and deciding it. -/
theorem settle_tended {q : Nat} {s s' : QState} (h : Tended skip n) (hs : n.qstates[q]? = some s)
    (hdone : s'.done = s.done) (hfired : s'.fired = s.fired) : Tended skip (n.settle q s') := by
  have hkeep : Tended skip { n with qstates := n.qstates.set q s' } := by
    refine h.set_qstate hs (fun _ hx => hx) (fun x hx => Or.inl ?_)
    rw [← hx, QState.token, QState.token, hdone, hfired]
  unfold Node.settle
  split
  · exact hkeep
  · split
    · have hnow : ({ s' with fired := true } : QState).done = s.done := hdone
      exact fire_tended h hs hnow true
    · split
      · have hnow : ({ s' with fired := true } : QState).done = s.done := hdone
        exact fire_tended h hs hnow false
      · exact hkeep

theorem onApplyReply_tended (h : Tended skip n) (slot : Nat) (member : Endpoint)
    (r : Record) (q : Nat)
    (code : Status) : Tended skip (n.onApplyReply id slot member r q code) := by
  unfold Node.onApplyReply
  split
  · exact h
  · rename_i s hs
    split
    · have hup : Eases n ((n.emit (.applyAcked member r)).markReplicaOk id slot) :=
        (emit_eases _).trans (markReplicaOk_eases _ _)
      refine settle_tended (s := s) (hup.tended h) ?_ rfl rfl
      rw [hup.qstates]
      exact hs
    · split
      · have hup : Eases n (n.resyncJob id) := resyncJob_eases _
        refine settle_tended (s := s) (hup.tended h) ?_ rfl rfl
        rw [hup.qstates]
        exact hs
      · exact settle_tended h hs rfl rfl

/-- While the log works, the copy of a job is in one of some states. -/
def Rests (good : JobState → Prop) (id : JobId) (n : Node) : Prop :=
  n.store.failed = false → ∀ j, n.find id = some j → good j.state

theorem Eases.rests {n₁ : Node} (h : Eases n n₁) {good : JobState → Prop} (hn : Rests good id n) :
    Rests good id n₁ := by
  intro hopen j hj
  rw [h.store] at hopen
  rw [h.find] at hj
  exact hn hopen j hj

variable {good : JobState → Prop}

/-- An expiry changes no copy that is not leased. -/
theorem Rests.expire (h : Rests good id n) (hgood : ¬ good .leased) (id' : JobId)
    (epoch leaseSeq : Nat) : Rests good id (n.commit (.expire id' epoch leaseSeq)).1 := by
  intro hopen j hj
  have hn := h (commit_open hopen).1
  rw [find_commit hopen] at hj
  split at hj
  · cases hfind : n.find id with
    | none => rw [hfind] at hj; cases hj
    | some l =>
      rw [hfind] at hj
      obtain rfl : _ = j := Option.some.inj hj
      have hl := hn l hfind
      have hne : l.state ≠ .leased := fun he => hgood (he ▸ hl)
      simp only [Record.on]
      rw [if_neg (fun hc => hne hc.2.1)]
      exact hl
  · exact hn j hj

theorem leaseDone_rests (h : Rests good id n) (hgood : ¬ good .leased) (id' : JobId)
    (epoch leaseSeq worker : Nat) (ok : Bool) :
    Rests good id (n.leaseDone id' epoch leaseSeq worker ok) := by
  unfold Node.leaseDone
  split
  · exact h
  · split
    · exact h
    · exact h.expire hgood id' _ _

theorem fireDone_rests (h : Rests good id n) (hgood : ¬ good .leased) (d : DoneCb) (ok : Bool) :
    Rests good id (n.fireDone d ok) := by
  cases d with
  | ignore => exact h
  | lease id' epoch leaseSeq worker => exact leaseDone_rests h hgood _ _ _ _ _
  | ack id' cb => exact (ackCb_eases _ _ _ _).rests h

theorem settle_rests (h : Rests good id n) (hgood : ¬ good .leased) (q : Nat) (s : QState) :
    Rests good id (n.settle q s) := by
  have hset : ∀ l, Rests good id { n with qstates := l } := fun _ => h
  unfold Node.settle
  split
  · exact hset _
  · split
    · exact fireDone_rests (hset _) hgood _ _
    · split
      · exact fireDone_rests (hset _) hgood _ _
      · exact hset _

theorem onApplyReply_rests (h : Rests good id n) (hgood : ¬ good .leased) (id' : JobId) (slot : Nat)
    (member : Endpoint) (r : Record) (q : Nat) (code : Status) :
    Rests good id (n.onApplyReply id' slot member r q code) := by
  unfold Node.onApplyReply
  split
  · exact h
  · split
    · exact settle_rests (((emit_eases _).trans (markReplicaOk_eases _ _)).rests h) hgood _ _
    · split
      · exact settle_rests ((resyncJob_eases _).rests h) hgood _ _
      · exact settle_rests h hgood _ _

end Settle

/-! ### Starting a transition -/

section Commit

variable {n : Node} {skip : JobId → Prop} {id : JobId}

theorem commit_failed (h : n.store.failed = true) (r : Record) :
    (n.commit r).1.store.failed = true := by
  by_contra hne
  have hopen := (commit_open (Bool.eq_false_of_not_eq_true hne)).1
  rw [h] at hopen
  cases hopen

theorem fireDone_failed (h : n.store.failed = true) (d : DoneCb) (ok : Bool) :
    (n.fireDone d ok).store.failed = true := by
  cases d with
  | ignore => exact h
  | ack id cb => rw [Node.fireDone, (ackCb_eases _ _ _ _).store, h]
  | lease id epoch leaseSeq worker =>
    rw [Node.fireDone, Node.leaseDone]
    split
    · exact h
    · split
      · exact h
      · exact commit_failed h _

/-- A property that holds after the commit and survives the requests holds of a quorum commit. -/
theorem quorumCommit_rule {P : Node → Prop} {r : Record} {d : DoneCb}
    (failed : ∀ m : Node, m.store.failed = true → P m)
    (absent : (n.commit r).1.find id = none → P (n.commit r).1)
    (start : ∀ j, (n.commit r).1.store.failed = false → (n.commit r).1.find id = some j →
      P ((n.commit r).1.trackQuorum id d (j.peers n.self)))
    (eases : ∀ m m' : Node, Eases m m' → P m → P m')
    (reply : ∀ (m : Node) slot member q, P m → P (m.onApplyReply id slot member r q kBusy)) :
    P (n.quorumCommit id r d) := by
  have hcalls : ∀ (l : List (Nat × Endpoint)) (m : Node), P m → P (l.foldl (fun m s =>
      m.call s.2 (.apply r) (.apply id s.1 s.2 r n.qstates.length)
        (fun m => m.onApplyReply id s.1 s.2 r n.qstates.length kBusy)) m) := by
    intro l
    induction l with
    | nil => exact fun _ h => h
    | cons s l ih =>
      intro m hm
      refine ih _ ?_
      simp only [Node.call]
      split
      · exact reply _ _ _ _ (eases m _ (.of_eq rfl rfl rfl rfl rfl rfl) hm)
      · exact eases m _ (.of_eq rfl rfl rfl rfl rfl rfl) hm
  have hout := commit_outcome n r
  unfold Node.quorumCommit
  generalize n.commit r = c at *
  cases hout with
  | failed s sched attempt closed =>
    simp only [if_true]
    exact failed _ (fireDone_failed closed d false)
  | ok sched open_ =>
    simp only [Bool.true_eq_false, if_false]
    split
    · rename_i hnone
      exact absent hnone
    · rename_i j hj
      exact hcalls _ _ (start j open_ hj)

/-- The bookkeeping of a commit that hands out no lease. -/
theorem trackQuorum_tended {d : DoneCb} (hd : ∀ id e k w, d ≠ .lease id e k w)
    {peers : List (Nat × Endpoint)} (h : Tended skip n) :
    Tended skip (n.trackQuorum id d peers) := by
  have hrep : Tended skip { n with repair := n.repair.insert id 0 } := h
  unfold Node.trackQuorum
  simp only
  split
  · cases d with
    | ignore => exact hrep
    | ack id cb => exact (ackCb_eases _ _ _ _).tended hrep
    | lease id e k w => exact absurd rfl (hd id e k w)
  · intro hopen x hx
    refine tracks_of_tokens (h hopen x hx) (fun e k hm => ?_)
    rw [List.filterMap_append]
    exact List.mem_append_left _ hm

theorem trackQuorum_rests {good : JobState → Prop} (hgood : ¬ good .leased) (d : DoneCb)
    (peers : List (Nat × Endpoint)) (h : Rests good id n) :
    Rests good id (n.trackQuorum id d peers) := by
  have hrep : Rests good id { n with repair := n.repair.insert id 0 } := h
  unfold Node.trackQuorum
  simp only
  split
  · exact fireDone_rests hrep hgood d true
  · exact h

/-- The bookkeeping of a lease commit tracks the job by the pending lease. -/
theorem trackQuorum_lease_tended (h : Tended (fun x => skip x ∨ x = id) n)
    (hid : n.store.failed = false → ∀ j, n.find id = some j → j.state ≠ .ready)
    (epoch leaseSeq worker : Nat) (peers : List (Nat × Endpoint)) :
    Tended skip (n.trackQuorum id (.lease id epoch leaseSeq worker) peers) := by
  have hrep : Tended (fun x => skip x ∨ x = id) { n with repair := n.repair.insert id 0 } := h
  unfold Node.trackQuorum
  simp only
  split
  · exact leaseDone_tended hrep (fun hopen _ j hj _ hs => absurd hs (hid hopen j hj)) _ _ _ _
  · intro hopen x hx
    by_cases he : x = id
    · subst he
      refine ⟨fun j hj _ hs => absurd hs (hid hopen j hj), fun j _ _ _ => ?_⟩
      refine Or.inr (Or.inr ⟨epoch, leaseSeq, ?_⟩)
      simp [Node.leasing, QState.token]
    · refine tracks_of_tokens (h hopen x (fun hs => hs.elim hx he)) (fun e k hm => ?_)
      rw [List.filterMap_append]
      exact List.mem_append_left _ hm

/-- A job without a copy needs no tracking. -/
theorem tracks_of_none (h : n.find id = none) : n.tracks id := by
  refine ⟨fun j hj => ?_, fun j hj => ?_⟩ <;> rw [h] at hj <;> cases hj

/-- Nor does a copy of another owner. -/
theorem tracks_of_owner (h : ∀ j, n.find id = some j → j.owner ≠ n.self) : n.tracks id :=
  ⟨fun j hj ho => absurd ho (h j hj), fun j hj ho => absurd ho (h j hj)⟩

/-- Nor does a terminal one. -/
theorem tracks_of_terminal (h : ∀ j, n.find id = some j → j.state ≠ .ready ∧ j.state ≠ .leased) :
    n.tracks id :=
  ⟨fun j hj _ hs => absurd hs (h j hj).1, fun j hj _ hs => absurd hs (h j hj).2⟩

variable {r : Record} {l : Job}

/-- The states after a record on a known copy. -/
theorem rests_commit {good : JobState → Prop} (hid : r.jobId = id) (hl : n.find id = some l)
    (h : good (r.on l).state) : Rests good id (n.commit r).1 := by
  intro hopen j hj
  rw [find_commit hopen, if_pos hid, hl] at hj
  obtain rfl : _ = j := Option.some.inj hj
  exact h

/-- A quorum commit that hands out no lease: the other jobs, and the state of its own. -/
theorem quorumCommit_tended {g : JobState → Prop} {d : DoneCb}
    (hd : ∀ id e k w, d ≠ .lease id e k w)
    (hgood : ¬ g .leased) (hid : r.jobId = id) (hl : n.find id = some l) (hr : g (r.on l).state)
    (h : Tended (fun x => skip x ∨ x = id) n) :
    Tended (fun x => skip x ∨ x = id) (n.quorumCommit id r d) ∧
    Rests g id (n.quorumCommit id r d) := by
  have hc : Tended (fun x => skip x ∨ x = id) (n.commit r).1 := by
    refine (h.commit r).mono ?_
    rintro x (hx | rfl)
    · exact hx
    · exact Or.inr hid
  have hs := rests_commit hid hl hr
  refine quorumCommit_rule
    (P := fun m => Tended (fun x => skip x ∨ x = id) m ∧ Rests g id m) ?_ ?_ ?_ ?_ ?_
  · intro m hm
    exact ⟨fun hopen => absurd (hm.symm.trans hopen) (by simp),
      fun hopen => absurd (hm.symm.trans hopen) (by simp)⟩
  · exact fun _ => ⟨hc, hs⟩
  · exact fun j _ _ => ⟨trackQuorum_tended hd hc, trackQuorum_rests hgood _ _ hs⟩
  · exact fun m m' he hm => ⟨he.tended hm.1, he.rests hm.2⟩
  · exact fun m slot member q hm => ⟨onApplyReply_tended hm.1 _ _ _ _ _,
      onApplyReply_rests hm.2 hgood _ _ _ _ _ _⟩

/-- A transition into a terminal state needs no tracking afterwards. -/
theorem quorumCommit_terminal {d : DoneCb} (hd : ∀ id e k w, d ≠ .lease id e k w)
    (hid : r.jobId = id)
    (hl : n.find id = some l) (hr : (r.on l).state ≠ .ready ∧ (r.on l).state ≠ .leased)
    (h : Tended (fun x => skip x ∨ x = id) n) : Tended skip (n.quorumCommit id r d) := by
  rcases quorumCommit_tended (g := fun s => s ≠ .ready ∧ s ≠ .leased) hd (by simp) hid hl hr h with
    ⟨ht, hs⟩
  exact ht.restore (fun hopen _ => tracks_of_terminal (hs hopen))

/-- A lease commit tracks its job. -/
theorem quorumCommit_lease (hl : n.find id = some l) {epoch leaseSeq worker : Nat}
    (hr : ((Record.lease id epoch leaseSeq worker).on l).state ≠ .ready)
    (h : Tended (fun x => skip x ∨ x = id) n) :
    Tended skip
    (n.quorumCommit id (.lease id epoch leaseSeq worker) (.lease id epoch leaseSeq worker)) := by
  have hc : Tended (fun x => skip x ∨ x = id) (n.commit (.lease id epoch leaseSeq worker)).1 := by
    refine (h.commit _).mono ?_
    rintro x (hx | rfl)
    · exact hx
    · exact Or.inr rfl
  have hs : Rests (· ≠ .ready) id (n.commit (.lease id epoch leaseSeq worker)).1 :=
    rests_commit rfl hl hr
  refine quorumCommit_rule (P := Tended skip) ?_ ?_ ?_ (fun m m' he hm => he.tended hm)
    (fun m slot member q hm => onApplyReply_tended hm _ _ _ _ _)
  · exact fun m hm hopen => absurd (hm.symm.trans hopen) (by simp)
  · exact fun hnone => hc.restore (fun _ _ => tracks_of_none hnone)
  · exact fun j _ _ => trackQuorum_lease_tended hc hs _ _ _ _

theorem on_deadLetter_self (l : Job) :
    ((Record.deadLetter id l.epoch).on l).state ≠ .ready ∧
      ((Record.deadLetter id l.epoch).on l).state ≠ .leased := by
  simp only [Record.on, le_refl, true_and]
  split
  · simp
  · rename_i h
    simp only [not_not] at h
    simp [h]

theorem on_done_own (l : Job) (leaseSeq : Nat) :
    ((Record.done id l.epoch leaseSeq).on l).state ≠ .ready ∧
      ((Record.done id l.epoch leaseSeq).on l).state ≠ .leased := by
  rw [Record.on_done_self _ _ _ _ (Nat.le_refl _)]
  simp

end Commit

end Tautq
