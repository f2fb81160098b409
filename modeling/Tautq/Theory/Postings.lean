import Tautq.Theory.Account
import Tautq.Theory.Track

/-!
# Handlers as Postings

Every handler of a node is a sequence of postings that starts with what its trigger brings and ends
with nothing in hand. The lemmas follow the handlers one by one, bottom up: a send puts its
callback into the call table or runs it at once, a submit is decided or waits, a commit is decided
or waits, and a callback that runs is one of the two or has a duty of its own.

Most of what a handler does is not on the books (`OffBook`) and comes before or after a posting.

## Theorems

* `call_clears`: Sending a request puts its callback into the table, or runs it.
* `ownerSubmit_clears`, `quorumCommit_clears`: The duty of a submit, and of a commit.
* `runCont_clears`: A callback that runs is dealt with.
* `react_clears`: A handler deals with what its trigger brings.
* `restart_clears`: A new process brings up its jobs with nothing in hand.
-/

namespace Tautq

open Status

/-! ### Single postings -/

section Postings

variable {n n' m : Node} {xs ys : List Item}

theorem Booking.turns (h : Booking n xs n' ys) : Turns Posting n xs n' ys :=
  .of_move (.entry h)

theorem Carry.turns (h : Carry n xs n' ys) : Turns Posting n xs n' ys :=
  (Booking.carry h).turns

theorem OffBook.of_books (h : n'.books = n.books) : OffBook n n' := by
  simp only [Node.books, Prod.mk.injEq] at h
  rcases h with
    ⟨self, cfg, now, boot, seq, req, calls, pending, qstates, resyncs, outbox, events, busy⟩
  exact ⟨⟨self, cfg, now.ge, boot, seq, req, calls, pending, qstates, resyncs,
    busy ▸ List.suffix_rfl⟩, by rw [Node.told, events, outbox, Node.told]⟩

theorem OffBook.refl (n : Node) : OffBook n n :=
  .of_books rfl

theorem OffBook.clears (h : OffBook n n') : Clears n [] n' :=
  (Booking.tell [] h.toUnmoved (h.told ▸ .refl _)).turns

/-- A step off the books comes first. -/
theorem OffBook.before (h : OffBook n m) (h' : Clears m xs n') : Clears n xs n' :=
  h.clears.append h'

theorem Clears.after (h : Clears m xs n') (hbooks : m.books = n.books) : Clears n xs n' :=
  (OffBook.of_books hbooks).before h

theorem emit_clears (n : Node) (e : Event) : Clears n (duties e.fulfils) (n.emit e) := by
  have hsame : Unmoved n (n.emit e) :=
    ⟨rfl, rfl, le_rfl, rfl, rfl, rfl, rfl, rfl, rfl, rfl, List.suffix_rfl⟩
  refine (Booking.tell e.fulfils hsame ?_).turns
  rw [Node.told, Node.emit, List.flatMap_cons, List.append_assoc, Node.told]

theorem respond_turns (n : Node) (ctx : ReqCtx) (st : Status) (body : Reply) :
    Clears n (duties (ctx.fulfils st)) (n.respond ctx st body) := by
  have hsame : Unmoved n (n.respond ctx st body) :=
    ⟨rfl, rfl, le_rfl, rfl, rfl, rfl, rfl, rfl, rfl, rfl, List.suffix_rfl⟩
  refine (Booking.tell (ctx.fulfils st) hsame ?_).turns
  have htold : (n.respond ctx st body).told = n.told ++ ctx.fulfils st := by
    simp [Node.told, Node.respond, Packet.fulfils]
  rw [htold]
  exact List.perm_append_comm

/-- A response does what the request asks for. -/
theorem respond_clears (n : Node) {ctx : ReqCtx} {st : Status} (h : ctx.turnedAway st = false)
    (body : Reply) : Clears n [.duty (.reply ctx)] (n.respond ctx st body) := by
  have hrespond := respond_turns n ctx st body
  rwa [ReqCtx.fulfils, h] at hrespond

/-- A forwarded ack is turned away, which answers the ack as well. -/
theorem respond_clears_ack (n : Node) {ctx : ReqCtx} {st : Status} (h : ctx.turnedAway st = true)
    (body : Reply) : Clears n [.duty .ack, .duty (.reply ctx)] (n.respond ctx st body) := by
  have hrespond := respond_turns n ctx st body
  rwa [ReqCtx.fulfils, h] at hrespond

/-- The callback of a finished call that counts for its duty only. -/
theorem ran_clears {k : Cont} (hk : k.mark = none) (reqId : Nat) (h : Clears n (duties k.owes) n') :
    Clears n [.taken reqId k] n' :=
  (Booking.ran reqId k hk).turns.trans h

/-- A request is sent and its callback waits, or the send is refused and the callback runs. -/
theorem call_clears (dst : Endpoint) (body : Request) (k : Cont) {onBusy : Node → Node}
    (h : ∀ m r, Clears m [.taken r k] (onBusy m)) :
    Clears n [.fresh k] (n.call dst body k onBusy) := by
  have hsched : OffBook n { n with sched := { n.sched with busy := n.sched.busy.tail } } :=
    ⟨⟨rfl, rfl, le_rfl, rfl, rfl, rfl, rfl, rfl, rfl, rfl, List.tail_suffix _⟩, rfl⟩
  refine hsched.before ?_
  unfold Node.call
  split
  · exact (Carry.refused k).turns.trans (h _ n.nextReq)
  · exact (Carry.sent dst body k).turns

/-- A request whose reply counts for nothing but its duty. -/
theorem ask_clears (dst : Endpoint) (body : Request) {k : Cont} (hk : k.mark = none)
    {onBusy : Node → Node} (h : ∀ m, Clears m (duties k.owes) (onBusy m)) :
    Clears n (duties k.owes) (n.call dst body k onBusy) :=
  (Booking.ask k hk).turns.trans (call_clears dst body k (fun m r => ran_clears hk r (h m)))

theorem resyncJob_clears (n : Node) (id : JobId) : Clears n [] (n.resyncJob id) :=
  .of_move (.resync id)

end Postings

/-! ### The parts of a resync -/

/-- A part of a resync: its requests, replies to them, and its counters. Neither submits nor
    commits are touched. -/
inductive ResyncPart (id : JobId) (n : Node) : List Item → Node → List Item → Prop where
  | entry {n' : Node} {xs ys : List Item} (entry : Booking n xs n' ys)
      (submits : n'.pendingSubmits = n.pendingSubmits) (commits : n'.qstates = n.qstates) :
      ResyncPart id n xs n' ys
  | ask : ResyncPart id n [] n [.fresh (.resync id)]
  | counter (counters : AList (fun _ : JobId => Int)) :
      ResyncPart id n [] { n with resyncInflight := counters } []

/-- A reply changes the counters only. -/
theorem resyncCountdown_counter (n : Node) (id : JobId) :
    ∃ counters, n.resyncCountdown id = { n with resyncInflight := counters } := by
  unfold Node.resyncCountdown
  split
  · exact ⟨n.resyncInflight, rfl⟩
  · split <;> exact ⟨_, rfl⟩

/-- A resync is made of its parts. -/
theorem resyncJob_parts (n : Node) (id : JobId) :
    Turns (ResyncPart id) n [] (n.resyncJob id) [] := by
  have hrefused : ∀ (m : Node) (r : Nat), Turns (ResyncPart id) m [.taken r (.resync id)]
      (m.onResyncReply id kBusy .empty) [] := by
    intro m r
    rcases resyncCountdown_counter m id with ⟨counters, heq⟩
    change Turns _ m _ (m.resyncCountdown id) []
    rw [heq]
    exact .of_move (.entry (.resynced r id counters heq) rfl rfl)
  have hcall : ∀ (m : Node) (s : Nat × Endpoint), Turns (ResyncPart id) m []
      (m.call s.2 (.resync id) (.resync id) (fun n => n.onResyncReply id kBusy .empty)) [] := by
    intro m s
    have hsched : Turns (ResyncPart id) m [] { m with
        sched := { m.sched with busy := m.sched.busy.tail } } [] :=
      .of_move (.entry (.tell [] ⟨rfl, rfl, le_rfl, rfl, rfl, rfl, rfl, rfl, rfl, rfl,
        List.tail_suffix _⟩ (.refl _)) rfl rfl)
    refine (hsched.trans (.of_move .ask)).trans ?_
    unfold Node.call
    split
    · exact Turns.trans (.of_move (.entry (.carry (.refused _)) rfl rfl)) (hrefused _ _)
    · exact .of_move (.entry (.carry (.sent s.2 (.resync id) (.resync id))) rfl rfl)
  unfold Node.resyncJob
  split
  · exact .refl n []
  · split
    · exact .refl n []
    · dsimp only
      split
      · exact .rounds _ _ hcall n
      · exact (Turns.rounds _ _ hcall n).trans (.of_move (.counter _))

/-- A resync leaves the waiting submits and the commits alone. -/
theorem resyncJob_waiting (n : Node) (id : JobId) :
    (n.resyncJob id).pendingSubmits = n.pendingSubmits ∧ (n.resyncJob id).qstates = n.qstates := by
  refine (resyncJob_parts n id).keeps (P := fun x =>
    x.1.pendingSubmits = n.pendingSubmits ∧ x.1.qstates = n.qstates) ?_ ⟨rfl, rfl⟩
  intro m xs m' ys hpart _ hm
  cases hpart with
  | entry _ submits commits => exact ⟨submits.trans hm.1, commits.trans hm.2⟩
  | ask | counter => exact hm

/-! ### Steps off the books -/

section OffBook

variable {n : Node}

theorem commit_aside (r : Record) : OffBook n (n.commit r).1 :=
  .of_books rfl

theorem afterOwnershipChange_aside (id : JobId) : OffBook n (n.afterOwnershipChange id) := by
  unfold Node.afterOwnershipChange
  split
  · exact .refl n
  · split_ifs <;> exact .of_books rfl

theorem markReplicaOk_aside (id : JobId) (slot : Nat) : OffBook n (n.markReplicaOk id slot) := by
  unfold Node.markReplicaOk
  split
  · exact .refl n
  · dsimp only
    split_ifs <;> exact .of_books rfl

theorem requeueReady_aside (id : JobId) (t : Time) : OffBook n (n.requeueReady id t) :=
  .of_books rfl

theorem walkJobs_aside (keys : List JobId) : OffBook n (n.walkJobs keys).2 :=
  .of_books rfl

theorem walkCalls_aside (keys : List Nat) : OffBook n (n.walkCalls keys).2 :=
  .of_books rfl

end OffBook

/-! ### Submits -/

section Submits

variable {n : Node}

theorem submitCb_clears (n : Node) (cb : SubmitCb) {st : Status}
    (hst : st ≠ kUnknownJob ∧ st ≠ kNotOwner)
    (id : JobId) : Clears n [.duty cb.duty] (n.submitCb cb st id) := by
  cases cb with
  | client key => exact emit_clears n (.submitAnswered key st id)
  | reply ctx =>
    refine respond_clears n ?_ _
    unfold ReqCtx.turnedAway
    split
    · simpa using hst
    · rfl

/-- A waiting submit is counted down, or decided and answered. -/
theorem countReplicate_clears {id : JobId} {ps : PendingSubmit}
    (hps : n.pendingSubmits.lookup id = some ps) (ok : Bool) (reqId slot : Nat) :
    Clears n [.taken reqId (.replicate id slot)] (n.countReplicate id ok ps) := by
  -- Both decisions insert the counted entry and take it out again.
  have hresult : ∀ (needed outstanding : Int) (st : Status), (st ≠ kUnknownJob ∧ st ≠ kNotOwner) →
      Clears n [.taken reqId (.replicate id slot)] (({ n with
        pendingSubmits := n.pendingSubmits.insert id ⟨ps.cb, needed, outstanding⟩ } :
          Node).submitResult id st) := by
    intro needed outstanding st hst
    unfold Node.submitResult
    rw [AList.lookup_insert]
    exact (Booking.decide reqId id slot ps _ hps).turns.trans (submitCb_clears _ ps.cb hst id)
  unfold Node.countReplicate
  dsimp only
  generalize (if ok then ps.needed - 1 else ps.needed) = needed
  split_ifs with hneeded hzero
  · exact hresult needed _ kCreated (by decide)
  · exact hresult needed _ kNoQuorum (by decide)
  · exact (Booking.count reqId id slot ps _ hps hzero).turns

theorem onReplicateReply_clears (n : Node) (id : JobId) (slot : Nat) (st : Status) (reqId : Nat) :
    Clears n [.taken reqId (.replicate id slot)] (n.onReplicateReply id slot st) := by
  -- The confirmation or the resync comes first and leaves the waiting submits alone.
  have hmid : ∀ ok : Bool, ∃ m, (if ok then n.markReplicaOk id slot
      else if st = kStaleEpoch then n.resyncJob id else n) = m ∧ Clears n [] m ∧
      m.pendingSubmits = n.pendingSubmits := by
    intro ok
    split_ifs
    · exact ⟨_, rfl, (markReplicaOk_aside id slot).clears,
        (markReplicaOk_aside id slot).pendingSubmits⟩
    · exact ⟨_, rfl, resyncJob_clears n id, (resyncJob_waiting n id).1⟩
    · exact ⟨_, rfl, .refl n [], rfl⟩
  unfold Node.onReplicateReply
  dsimp only
  rcases hmid (decide (st = kCreated ∨ st = kDuplicate)) with ⟨m, hm, hclears, hpending⟩
  rw [hm]
  refine hclears.append ?_
  split
  · next hnone => exact (Booking.late reqId id slot (by rw [hpending]; exact hnone)).turns
  · next ps hps => exact countReplicate_clears (by rw [hpending]; exact hps) _ reqId slot

/-- Sending the stored copy of a job, the request being in hand. -/
theorem sendReplicate_clears {id : JobId} {j : Job} (hj : n.find id = some j) (slot : Nat) :
    Clears n [.fresh (.replicate id slot)] (n.sendReplicate id slot) := by
  unfold Node.sendReplicate
  rw [hj]
  exact call_clears _ _ _ (fun m r => onReplicateReply_clears m id slot _ r)

/-- Sending the stored copy of a job, out of the blue. -/
theorem sendReplicate_alone (n : Node) (id : JobId) (slot : Nat) :
    Clears n [] (n.sendReplicate id slot) := by
  cases hj : n.find id with
  | none =>
    rw [Node.sendReplicate, hj]
    exact .refl n []
  | some j => exact (Booking.resend id slot).turns.trans (sendReplicate_clears hj slot)

theorem resend_clears (slots : List (Nat × Endpoint)) (n : Node) (id : JobId) :
    Clears n [] (slots.foldl (fun n s => n.sendReplicate id s.1) n) :=
  .rounds _ slots (fun m s => sendReplicate_alone m id s.1) n

/-- Sending it to some peers, the requests being in hand. -/
theorem sendAll_clears {id : JobId} {j : Job} (hj : n.find id = some j)
    (peers : List (Nat × Endpoint)) : Clears n (peers.map (fun s => .fresh (.replicate id s.1)))
      (peers.foldl (fun m s => m.sendReplicate id s.1) n) := by
  rw [List.map_eq_flatMap]
  exact (Turns.loop (P := fun m : Node => m.find id = some j) _ _ peers (fun m s _ hm =>
    ⟨sendReplicate_clears hm s.1, ((sendReplicate_eases id s.1).find id).trans hm⟩) n hj).1

/-- A new job is sent to its peers, and its submit waits for them or is answered. -/
theorem startReplication_clears {j : Job} (hj : n.find n.nextId = some j) (cb : SubmitCb) :
    Clears n [.ticket, .duty cb.duty]
      (({ n with nextJobSeq := n.nextJobSeq + 1 } : Node).startReplication n.nextId cb) := by
  unfold Node.startReplication
  rw [show ({ n with nextJobSeq := n.nextJobSeq + 1 } : Node).find n.nextId = some j from hj]
  dsimp only
  generalize j.peers n.self = peers
  unfold Node.trackSubmit
  refine Clears.after (m := { n with repair := n.repair.insert n.nextId 0 }) ?_ rfl
  by_cases hnil : peers = []
  · simp only [hnil, if_true, List.foldl_nil]
    unfold Node.submitResult
    rw [AList.lookup_insert]
    exact (Booking.lone _).turns.append (submitCb_clears _ cb (by decide) _)
  · simp only [hnil, if_false]
    have hslots : peers.map Prod.fst ≠ [] := by simpa using hnil
    have hawait :=
      (Booking.await (n := { n with repair := n.repair.insert n.nextId 0 }) cb _ hslots).turns
    rw [List.length_map, List.map_map] at hawait
    exact hawait.trans (sendAll_clears (by exact hj) peers)

/-- The leave to mint is not used. -/
theorem waive_clears {items : List Item} {n' : Node} (h : Clears n items n') :
    Clears n (.ticket :: items) n' :=
  Carry.waive.turns.append h

/-- The owner's side of a submit. -/
theorem ownerSubmit_clears (n : Node) (p : SubmitParams) (cb : SubmitCb) :
    Clears n [.ticket, .duty cb.duty] (n.ownerSubmit p cb) := by
  unfold Node.ownerSubmit
  split
  · exact waive_clears (submitCb_clears n cb (by decide) _)
  · split
    · exact waive_clears (submitCb_clears n cb (by decide) _)
    · dsimp only
      have hout := commit_outcome { n with nextJobSeq := n.nextJobSeq + 1 } (.submit (n.mintJob p))
      have hcommit :=
        @commit_aside { n with nextJobSeq := n.nextJobSeq + 1 } (.submit (n.mintJob p))
      generalize ({ n with nextJobSeq := n.nextJobSeq + 1 } : Node).commit
        (.submit (n.mintJob p)) = c at hout hcommit
      -- The number is used up when the submit starts to wait, or for nothing.
      cases hout with
      | ok sched open_ =>
        rw [if_pos rfl]
        refine OffBook.before (m := { n with
          sched, store := n.store.append (.submit (n.mintJob p))
          ready := n.ready ++ [(n.mintJob p).id] })
          ⟨⟨rfl, rfl, le_rfl, rfl, rfl, rfl, rfl, rfl, rfl, rfl, hcommit.busy⟩, rfl⟩ ?_
        exact startReplication_clears (by exact find_append_submit n.store (n.mintJob p)) cb
      | failed s sched attempt closed =>
        rw [if_neg (by simp)]
        refine OffBook.before (m := { n with sched, store := s })
          ⟨⟨rfl, rfl, le_rfl, rfl, rfl, rfl, rfl, rfl, rfl, rfl, hcommit.busy⟩, rfl⟩ ?_
        exact Carry.spoil.turns.append (submitCb_clears _ cb (by decide) _)

theorem onFwdSubmitReply_clears (n : Node) (key : Bytes) (st : Status) (body : Reply) :
    Clears n [.duty (.submit key)] (n.onFwdSubmitReply key st body) := by
  unfold Node.onFwdSubmitReply
  split
  · exact emit_clears n (.submitAnswered key st body.asJobId)
  · exact emit_clears n (.submitAnswered key kNoQuorum {})

theorem submit_clears (n : Node) (p : SubmitParams) :
    Clears n [.ticket, .duty (.submit p.idemKey)] (n.submit p) := by
  unfold Node.submit
  split
  · exact waive_clears (emit_clears n (.submitAnswered p.idemKey kInvalid {}))
  · dsimp only
    split_ifs
    · exact ownerSubmit_clears n p (.client p.idemKey)
    · exact waive_clears (emit_clears n (.submitAnswered p.idemKey kNoQuorum {}))
    · exact waive_clears (ask_clears (k := .fwdSubmit p.idemKey) _ _ rfl
        (fun m => onFwdSubmitReply_clears m p.idemKey _ _))

theorem queryStatusTarget_clears (id : JobId) (targets : List Endpoint)
    (best : Option Job) (n : Node) :
    Clears n [.duty (.status id)] (Node.queryStatusTarget id targets best n) := by
  induction targets generalizing best n with
  | nil => exact emit_clears n (.statusAnswered id _ best)
  | cons target rest ih =>
    unfold Node.queryStatusTarget
    split
    · exact ih _ n
    · exact ask_clears (k := .fwdStatus id rest best) _ _ rfl (fun m => ih best m)

end Submits

/-! ### Commits -/

section Commits

variable {n : Node}

theorem ackCb_clears (n : Node) (cb : AckCb) (id : JobId) (success : Bool) {st : Status}
    (hst : st ≠ kUnknownJob ∧ st ≠ kNotOwner ∨ cb = .client) :
    Clears n (duties cb.owes) (n.ackCb cb id success st) := by
  have hemit := emit_clears n (.ownerAcked id success st)
  cases cb with
  | client => exact hemit
  | reply ctx =>
    refine hemit.append (respond_clears _ ?_ _)
    unfold ReqCtx.turnedAway
    split
    · simpa using hst
    · rfl

theorem leaseDone_clears (n : Node) (id : JobId) (epoch leaseSeq worker : Nat) (ok : Bool) :
    Clears n [.duty .lease] (n.leaseDone id epoch leaseSeq worker ok) := by
  unfold Node.leaseDone
  split
  · exact emit_clears n (.leaseRefused kUnknownJob)
  · next j _ =>
      split
      · exact Clears.after (emit_clears _ (.granted _ _ _)) rfl
      · refine (commit_aside (.expire id j.epoch j.leaseSeq)).before ?_
        exact (requeueReady_aside id _).before (emit_clears _ (.leaseRefused kNoQuorum))

theorem fireDone_clears (n : Node) (d : DoneCb) (ok : Bool) :
    Clears n (duties d.owes) (n.fireDone d ok) := by
  cases d with
  | ignore => exact .refl n []
  | lease id epoch leaseSeq worker => exact leaseDone_clears n id epoch leaseSeq worker ok
  | ack id cb => exact ackCb_clears n cb id true (Or.inl (by cases ok <;> decide))

/-- A reply is counted for its commit, which may decide it. -/
theorem settle_clears {q : Nat} {s : QState} (hq : n.qstates[q]? = some s)
    (needed : Int) (reqId : Nat) (id : JobId) (slot : Nat) (member : Endpoint) (r : Record) :
    Clears n [.taken reqId (.apply id slot member r q)]
      (n.settle q { s with outstanding := s.outstanding - 1, needed }) := by
  -- A decision sets the flag, and takes up what the commit is for.
  have hfire : s.fired = false → ∀ s' : QState, s'.fired = true → ∀ ok,
      Clears n [.taken reqId (.apply id slot member r q)]
        (({ n with qstates := n.qstates.set q s' } : Node).fireDone s.done ok) := by
    intro hopen s' hfired ok
    exact (Booking.settle reqId id slot member r q s s' hq hopen hfired).turns.trans
      (fireDone_clears _ s.done ok)
  unfold Node.settle
  dsimp only
  split_ifs with hfired hneeded hzero
  · exact (Booking.tally reqId id slot member r q s needed hq (Or.inl hfired)).turns
  · exact hfire (by simpa using hfired) _ rfl true
  · exact hfire (by simpa using hfired) _ rfl false
  · exact (Booking.tally reqId id slot member r q s needed hq (Or.inr hzero)).turns

theorem onApplyReply_clears (n : Node) (id : JobId) (slot : Nat) (member : Endpoint)
    (r : Record) (q : Nat) (code : Status) (reqId : Nat) :
    Clears n [.taken reqId (.apply id slot member r q)]
    (n.onApplyReply id slot member r q code) := by
  unfold Node.onApplyReply
  split
  · next hnone => exact (Booking.stray reqId id slot member r q hnone).turns
  · next s hs =>
      split_ifs
      · refine (emit_clears n (.applyAcked member r)).append ?_
        have hmark := @markReplicaOk_aside (n.emit (.applyAcked member r)) id slot
        exact hmark.before (settle_clears (hmark.qstates ▸ hs) _ reqId id slot member r)
      · refine (resyncJob_clears n id).append ?_
        have hq : (n.resyncJob id).qstates[q]? = some s := by rw [(resyncJob_waiting n id).2, hs]
        exact settle_clears hq s.needed reqId id slot member r
      · exact settle_clears hs s.needed reqId id slot member r

/-- A record never takes a copy away. -/
theorem find_append_some {s : Store} {id : JobId} {j : Job} (hj : s.table.find id = some j)
    (r : Record) : ∃ j', (s.append r).table.find id = some j' := by
  change ∃ j', (s.table.apply r).find id = some j'
  rw [Table.find_apply, hj]
  split <;> exact ⟨_, rfl⟩

/-- A transition of a stored job: its duty waits for the peers' answers, or is done at once. -/
theorem quorumCommit_clears {id : JobId} {j : Job} (hj : n.find id = some j) (r : Record)
    (done : DoneCb) : Clears n (duties done.owes) (n.quorumCommit id r done) := by
  unfold Node.quorumCommit
  have hout := commit_outcome n r
  have hcommit := @commit_aside n r
  dsimp only
  generalize n.commit r = c at hout hcommit
  refine hcommit.before ?_
  cases hout with
  | failed s sched attempt closed => exact fireDone_clears _ done false
  | ok sched open_ =>
    rw [if_neg (by simp)]
    rcases find_append_some hj r with ⟨j', hj'⟩
    rw [show ({ n with store := n.store.append r, sched } : Node).find id = some j' from hj']
    dsimp only
    generalize j'.peers n.self = peers
    unfold Node.trackQuorum
    refine OffBook.before (m := { n with
      store := n.store.append r, sched, repair := n.repair.insert id 0 }) (.of_books rfl) ?_
    by_cases hnil : peers = []
    · simp only [hnil, if_true, List.foldl_nil]
      exact fireDone_clears _ done true
    · simp only [hnil, if_false]
      refine (Booking.commit id r done peers hnil).turns.trans ?_
      rw [List.map_eq_flatMap]
      exact (Turns.loop (P := fun _ => True) _ _ peers
        (fun m s _ _ => ⟨call_clears _ _ _ (fun m' r' => onApplyReply_clears m' _ _ _ _ _ _ r'),
          trivial⟩) _ trivial).1

end Commits

/-! ### Leases and acks -/

section Leases

variable {n : Node}

theorem leaseJob_clears {j : Job} (hj : n.find j.id = some j) (worker : Nat) :
    Clears n [.duty .lease] (n.leaseJob j worker) := by
  unfold Node.leaseJob
  split
  · exact Clears.after (emit_clears _ (.leaseRefused kNoQuorum)) rfl
  · dsimp only
    split
    · exact (quorumCommit_clears hj (.deadLetter j.id j.epoch) .ignore).append
        (emit_clears _ (.leaseRefused kNoJob))
    · exact Clears.after (quorumCommit_clears (by exact hj) _ (.lease j.id j.epoch _ worker)) rfl

theorem lease_clears (n : Node) (worker : Nat) : Clears n [.duty .lease] (n.lease worker) := by
  unfold Node.lease
  split
  · exact emit_clears n (.leaseRefused kNoJob)
  · dsimp only
    split
    · exact Clears.after (emit_clears _ (.leaseRefused kNoJob)) rfl
    · next j hpick =>
        exact Clears.after (leaseJob_clears (by exact (scanReady_some n _ _ j hpick).1) worker) rfl

theorem expireJob_clears (n : Node) (id : JobId) : Clears n [] (n.expireJob id) := by
  unfold Node.expireJob
  dsimp only
  refine OffBook.before (m := { n with leaseDeadline := n.leaseDeadline.erase id })
    (.of_books rfl) ?_
  split
  · exact .refl _ []
  · next j hj =>
      split_ifs
      · exact .refl _ []
      · exact quorumCommit_clears (by exact hj) _ .ignore
      · exact (emit_clears _ (.expired id j.leaseSeq n.now)).append
          ((quorumCommit_clears (by exact hj) _ .ignore).trans (requeueReady_aside id _).clears)

theorem nackJob_clears {id : JobId} {j : Job} (hj : n.find id = some j) (epoch leaseSeq : Nat)
    (cb : AckCb) : Clears n (duties cb.owes) (n.nackJob id j epoch leaseSeq cb) := by
  unfold Node.nackJob
  dsimp only
  refine OffBook.before (m := { n with leaseDeadline := n.leaseDeadline.erase id })
    (.of_books rfl) ?_
  refine (emit_clears _ (.nacked id epoch leaseSeq n.now)).append ?_
  refine Turns.append (quorumCommit_clears (by exact hj) (.expire id j.epoch j.leaseSeq) .ignore) ?_
  exact (requeueReady_aside id _).before (ackCb_clears _ cb id false (Or.inl (by decide)))

theorem completeJob_clears {id : JobId} {j : Job} (hj : n.find id = some j) (epoch leaseSeq : Nat)
    (cb : AckCb) : Clears n (duties cb.owes) (n.completeJob id j epoch leaseSeq cb) := by
  unfold Node.completeJob
  refine OffBook.before (m := { n with
    leaseDeadline := n.leaseDeadline.erase id, notBefore := n.notBefore.erase id })
      (.of_books rfl) ?_
  refine (emit_clears _ (.doneStarted id epoch leaseSeq)).append ?_
  exact quorumCommit_clears (by exact hj) _ (.ack id cb)

/-- The owner's side of an ack. An ack that came from another node is for a job that is there. -/
theorem ownerAck_clears (n : Node) (id : JobId) (epoch leaseSeq : Nat) (success : Bool) (cb : AckCb)
    (hcb : (n.find id).isSome ∨ cb = .client) :
    Clears n (duties cb.owes) (n.ownerAck id epoch leaseSeq success cb) := by
  unfold Node.ownerAck
  split
  · next hnone => exact ackCb_clears n cb id success (Or.inr (by simpa [hnone] using hcb))
  · next j hj =>
      split_ifs
      all_goals first
        | exact nackJob_clears hj epoch leaseSeq cb
        | exact completeJob_clears hj epoch leaseSeq cb
        | exact ackCb_clears n cb id success (Or.inl (by decide))

theorem ack_clears (n : Node) (id : JobId) (epoch leaseSeq : Nat) (success : Bool) :
    Clears n [.duty .ack] (n.ack id epoch leaseSeq success) := by
  unfold Node.ack
  split
  · exact emit_clears n (.ackRelayed kUnknownJob)
  · split
    · exact ownerAck_clears n id epoch leaseSeq success .client (Or.inr rfl)
    · exact ask_clears (k := .fwdAck) _ _ rfl (fun m => emit_clears m (.ackRelayed kBusy))

theorem handleFwdAck_clears (n : Node) {ctx : ReqCtx} {id : JobId} {epoch leaseSeq : Nat}
    {success : Bool} (hasked : ctx.asked = .fwdAck id epoch leaseSeq success) :
    Clears n [.duty .ack, .duty (.reply ctx)] (n.handleFwdAck ctx id epoch leaseSeq success) := by
  have haway : ∀ st, (st = kUnknownJob ∨ st = kNotOwner) → ctx.turnedAway st = true := by
    intro st hst
    unfold ReqCtx.turnedAway
    rw [hasked]
    simpa using hst
  unfold Node.handleFwdAck
  split
  · exact respond_clears_ack n (haway _ (Or.inl rfl)) _
  · next j hj =>
      split
      · exact respond_clears_ack n (haway _ (Or.inr rfl)) _
      · exact ownerAck_clears n id epoch leaseSeq success (.reply ctx) (Or.inl (by rw [hj]; rfl))

theorem repairJob_clears (n : Node) (id : JobId) : Clears n [] (n.repairJob id) := by
  unfold Node.repairJob
  repeat' split
  all_goals first
    | exact .refl n []
    | exact resend_clears _ n id

end Leases

/-! ### Takeovers and drains -/

section Failover

variable {n : Node}

theorem activate_clears (n : Node) (id : JobId) : Clears n [] (n.activate id) := by
  unfold Node.activate
  split
  · exact .refl n []
  · next j _ =>
      dsimp only
      refine OffBook.before ?_ (emit_clears _ (.finalized j))
      split_ifs <;> exact .of_books rfl

theorem inherit_aside (id : JobId) (st : ClaimState) (j : Job) : OffBook n (n.inherit id st j) := by
  unfold Node.inherit
  dsimp only
  cases Node.inherits id st j <;> split <;> exact .of_books rfl

theorem finalizeTakeover_clears (n : Node) (id : JobId) : Clears n [] (n.finalizeTakeover id) := by
  unfold Node.finalizeTakeover
  split
  · exact .refl n []
  · next st _ =>
      dsimp only
      refine OffBook.before (m := { n with claims := n.claims.erase id }) (.of_books rfl) ?_
      repeat' split
      all_goals first
        | exact .refl _ []
        | exact (inherit_aside id st _).before (activate_clears _ id)

theorem onClaimReply_clears (n : Node) (id : JobId) (dst : Endpoint) (code : Status)
    (body : Reply) : Clears n [] (n.onClaimReply id dst code body) := by
  unfold Node.onClaimReply
  split
  · exact .refl n []
  · next st _ =>
      split_ifs
      · unfold Node.onClaimGrant
        dsimp only
        generalize ClaimState.merge _ _ = counted
        split
        · exact Clears.after (finalizeTakeover_clears _ id) rfl
        · exact Clears.after (.refl _ []) rfl
      · exact Clears.after (resyncJob_clears _ id) rfl
      · split
        · exact .refl n []
        · exact resend_clears _ n id
      · exact .refl n []

theorem claimSend_clears (n : Node) (id : JobId) (dst : Endpoint) :
    Clears n [] (n.claimSend id dst) := by
  unfold Node.claimSend
  split
  · exact .refl n []
  · exact ask_clears (k := .claim id dst) _ _ rfl (fun m => onClaimReply_clears m id dst _ _)

theorem askAround_clears (slots : List (Nat × Endpoint)) (n : Node) (id : JobId) :
    Clears n [] (slots.foldl (fun n s => n.claimSend id s.2) n) :=
  .rounds _ slots (fun m s => claimSend_clears m id s.2) n

theorem startTakeover_clears (n : Node) (id : JobId) : Clears n [] (n.startTakeover id) := by
  unfold Node.startTakeover
  split
  · exact .refl n []
  · split
    · exact .refl n []
    · next j _ =>
        split
        · exact .refl n []
        · dsimp only
          refine (commit_aside (.takeover id ((j.epoch + 1) % 2 ^ 32) n.self)).before ?_
          generalize n.commit (.takeover id ((j.epoch + 1) % 2 ^ 32) n.self) = c
          split
          · unfold Node.openClaim
            dsimp only
            split
            · exact Clears.after (finalizeTakeover_clears _ id) rfl
            · exact Clears.after (askAround_clears _ _ id) rfl
          · exact .refl _ []

theorem retryClaim_clears (n : Node) (id : JobId) : Clears n [] (n.retryClaim id) := by
  unfold Node.retryClaim
  split
  · exact .refl n []
  · next st _ =>
      dsimp only
      split
      · exact Clears.after (.refl _ []) rfl
      · exact Clears.after (askAround_clears _ _ id) rfl

theorem handoff_clears (n : Node) (id : JobId) : Clears n [] (n.handoff id) := by
  unfold Node.handoff
  repeat' split
  all_goals first
    | exact .refl n []
    | exact ask_clears (k := .drainHandoff) _ _ rfl (fun m => .refl m [])

end Failover

/-! ### Callbacks and timers -/

section Events

theorem onResyncReply_clears (n : Node) (id : JobId) (code : Status) (body : Reply) (reqId : Nat) :
    Clears n [.taken reqId (.resync id)] (n.onResyncReply id code body) := by
  rcases resyncCountdown_counter n id with ⟨counters, heq⟩
  unfold Node.onResyncReply
  rw [heq]
  refine (Booking.resynced reqId id counters heq).turns.trans ?_
  dsimp only
  generalize ({ n with resyncInflight := counters } : Node) = m
  repeat' split
  all_goals first
    | exact .refl m []
    | exact (commit_aside (.replicate _)).before (afterOwnershipChange_aside id).clears

/-- A callback that runs is dealt with. -/
theorem runCont_clears (n : Node) (k : Cont) (st : Status) (body : Reply) (reqId : Nat) :
    Clears n [.taken reqId k] (n.runCont k st body) := by
  cases k with
  | fwdSubmit key => exact ran_clears rfl reqId (onFwdSubmitReply_clears n key st body)
  | replicate id slot => exact onReplicateReply_clears n id slot st reqId
  | apply id slot member r q => exact onApplyReply_clears n id slot member r q st reqId
  | fwdAck => exact ran_clears rfl reqId (emit_clears n (.ackRelayed st))
  | claim id dst => exact ran_clears rfl reqId (onClaimReply_clears n id dst st body)
  | resync id => exact onResyncReply_clears n id st body reqId
  | drainHandoff => exact ran_clears rfl reqId (.refl n [])
  | fwdStatus id rest best => exact ran_clears rfl reqId (queryStatusTarget_clears id rest _ n)

theorem finishCall_clears (n : Node) (st : Status) (body : Reply) (reqId : Nat) :
    Clears n [] (n.finishCall st body reqId) := by
  unfold Node.finishCall
  split
  · exact .refl n []
  · next c hc => exact (Carry.finish reqId c hc).turns.trans (runCont_clears _ c.cont st body reqId)

theorem failCallsTo_clears (n : Node) (p : Endpoint) : Clears n [] (n.failCallsTo p) :=
  (walkCalls_aside _).before (.rounds _ _ (fun m r => finishCall_clears m kPeerDown .empty r) _)

theorem onPeerDead_clears (n : Node) (p : Endpoint) : Clears n [] (n.onPeerDead p) := by
  refine (failCallsTo_clears n p).append ?_
  exact (walkJobs_aside _).before (.rounds _ _ startTakeover_clears _)

theorem onPeerAlive_clears (n : Node) (p : Endpoint) : Clears n [] (n.onPeerAlive p) := by
  refine (walkJobs_aside _).before (.rounds _ _ (fun m id => ?_) _)
  exact Clears.after (.refl _ []) rfl

theorem rpcTick_clears (n : Node) : Clears n [] n.rpcTick :=
  (walkCalls_aside _).before (.rounds _ _ (fun m r => finishCall_clears m kTimeout .empty r) _)

theorem expiryTick_clears (n : Node) : Clears n [] n.expiryTick :=
  (walkJobs_aside _).before (.rounds _ _ expireJob_clears _)

theorem repairTick_clears (n : Node) : Clears n [] n.repairTick := by
  unfold Node.repairTick
  split
  · exact .refl n []
  · exact Clears.after (Turns.rounds _ _ repairJob_clears _) rfl

theorem claimTick_clears (n : Node) : Clears n [] n.claimTick := by
  unfold Node.claimTick
  split
  · exact .refl n []
  · exact Clears.after (Turns.rounds _ _ retryClaim_clears _) rfl

theorem drainTick_clears (n : Node) : Clears n [] n.drainTick := by
  unfold Node.drainTick
  split
  · exact .refl n []
  · dsimp only
    refine OffBook.before (m := (({ n with nextDrainTick := n.now + 500 } : Node).walkJobs
      n.store.table.jobs.keys).2) (.of_books rfl) ?_
    generalize ({ n with nextDrainTick := n.now + 500 } : Node).walkJobs n.store.table.jobs.keys = w
    have hrounds := Turns.rounds Node.handoff (w.1.filter n.holdsActive) handoff_clears w.2
    generalize (w.1.filter n.holdsActive).foldl Node.handoff w.2 = m at hrounds ⊢
    refine hrounds.trans ?_
    split
    · exact Clears.after (emit_clears _ .drained) rfl
    · exact .refl m []

/-- The ticks after that of the calls. -/
theorem ticks_clears (n : Node) : Clears n.rpcTick [] n.tick :=
  (expiryTick_clears _).trans <| (repairTick_clears _).trans <|
    (claimTick_clears _).trans (drainTick_clears _)

theorem tick_clears (n : Node) : Clears n [] n.tick :=
  (rpcTick_clears n).trans (ticks_clears n)

/-! ### Requests -/

/-- A request that is not a forwarded ack is not turned away. -/
theorem answered_clears (n : Node) {ctx : ReqCtx}
    (hasked : ∀ id epoch leaseSeq success, ctx.asked ≠ .fwdAck id epoch leaseSeq success)
    (st : Status) (body : Reply) : Clears n [.duty (.reply ctx)] (n.respond ctx st body) := by
  refine respond_clears n ?_ body
  unfold ReqCtx.turnedAway
  split
  · next id epoch leaseSeq success h => exact absurd h (hasked id epoch leaseSeq success)
  · rfl

section Serve

variable {n : Node} {ctx : ReqCtx}
  (hasked : ∀ id epoch leaseSeq success, ctx.asked ≠ .fwdAck id epoch leaseSeq success)

include hasked

theorem handleReplicate_clears (j : Job) :
    Clears n [.duty (.reply ctx)] (n.handleReplicate ctx j) := by
  unfold Node.handleReplicate Node.storeCopy
  dsimp only
  repeat' split
  all_goals first
    | exact answered_clears n hasked _ _
    | exact (commit_aside _).before (answered_clears _ hasked _ _)

theorem handleClaim_clears (id : JobId) (proposed : Nat) (newOwner : Endpoint) :
    Clears n [.duty (.reply ctx)] (n.handleClaim ctx id proposed newOwner) := by
  unfold Node.handleClaim Node.grantClaim
  dsimp only
  repeat' split
  all_goals first
    | exact answered_clears n hasked _ _
    | exact (commit_aside _).before (answered_clears _ hasked _ _)
    | exact (commit_aside _).before
        ((afterOwnershipChange_aside id).before (answered_clears _ hasked _ _))

theorem handleApply_clears (r : Record) : Clears n [.duty (.reply ctx)] (n.handleApply ctx r) := by
  unfold Node.handleApply Node.applyRecord
  dsimp only
  repeat' split
  all_goals first
    | exact answered_clears n hasked _ _
    | exact (commit_aside _).before (answered_clears _ hasked _ _)

theorem handleDrainHandoff_clears (id : JobId) :
    Clears n [.duty (.reply ctx)] (n.handleDrainHandoff ctx id) := by
  unfold Node.handleDrainHandoff
  repeat' split
  all_goals first
    | exact answered_clears n hasked _ _
    | exact (startTakeover_clears n id).append (answered_clears _ hasked _ _)

end Serve

theorem serve_clears (n : Node) (ctx : ReqCtx) (dst : Endpoint) :
    Clears n (Trigger.packet (.request ctx.src dst ctx.boot ctx.reqId ctx.asked)).inHand
      (n.serve ctx) := by
  unfold Node.serve
  rcases ctx with ⟨src, boot, reqId, asked⟩
  cases asked with
  | fwdSubmit p =>
    dsimp only
    unfold Node.handleFwdSubmit
    split
    · exact waive_clears (answered_clears n (by simp) _ _)
    · exact ownerSubmit_clears n p (.reply _)
  | replicate j => exact handleReplicate_clears (by simp) j
  | claim id proposed newOwner => exact handleClaim_clears (by simp) id proposed newOwner
  | fwdAck id epoch leaseSeq success => exact handleFwdAck_clears n rfl
  | apply r => exact handleApply_clears (by simp) r
  | drainHandoff id => exact handleDrainHandoff_clears (by simp) id
  | resync id =>
    dsimp only
    unfold Node.handleResync
    split <;> exact answered_clears n (by simp) _ _
  | fwdStatus id =>
    dsimp only
    unfold Node.handleFwdStatus
    split <;> exact answered_clears n (by simp) _ _

/-- A handler deals with what its trigger brings. -/
theorem react_clears (n : Node) {t : Trigger} (ht : ∀ boot, t ≠ .input (.restart boot)) :
    Clears n t.inHand (n.react t) := by
  cases t with
  | packet p =>
    cases p with
    | request src dst boot reqId asked => exact serve_clears n ⟨src, boot, reqId, asked⟩ dst
    | response src dst boot reqId asked st body => exact finishCall_clears n st body reqId
  | input i =>
    cases i with
    | submit p => exact submit_clears n p
    | lease worker => exact lease_clears n worker
    | ack id epoch leaseSeq success => exact ack_clears n id epoch leaseSeq success
    | status id => exact queryStatusTarget_clears id _ none n
    | tick => exact tick_clears n
    | peerDead p => exact onPeerDead_clears n p
    | peerAlive p => exact onPeerAlive_clears n p
    | hello p => exact failCallsTo_clears n p
    | restart boot => exact absurd rfl (ht boot)
    | advance d =>
      exact OffBook.clears ⟨⟨rfl, rfl, Nat.le_add_right _ _, rfl, rfl, rfl, rfl, rfl, rfl, rfl,
        List.suffix_rfl⟩, rfl⟩
    | view peers | drain | compact => exact Clears.after (.refl _ []) rfl

theorem openJob_clears (n : Node) (id : JobId) : Clears n [] (n.openJob id) := by
  unfold Node.openJob
  split
  · exact .refl n []
  · next j _ =>
      split
      · exact .refl n []
      · dsimp only
        split
        · exact Clears.after (resyncJob_clears _ id) rfl
        · exact Clears.after (resyncJob_clears _ id) rfl
        · exact Clears.after (.refl _ []) rfl

/-- A new process sets up its jobs. -/
theorem restart_clears (n : Node) (boot : Nat) : Clears (n.reboot boot) [] (n.restart boot) :=
  (walkJobs_aside _).before (.rounds _ _ openJob_clears _)

end Events

end Tautq
