import Tautq.Theory.Moves

/-!
# Handlers Are Paths of Moves

Every handler decomposed into elementary moves, in the order of the
definitions: first sends, appends, resyncs, submits and status queries. Quorum
commits follow in `Theory.Handlers`, timers and failover in `Theory.React`.

A refused send runs its callback inside the loop that sends, so the lemmas for
loops carry what the callbacks leave alone: the node's name, its store, its
claims and its commit counters (`Anchored`).

The one fact about a node the decomposition needs is `Sound`: a commit that has
not been decided still needs its one confirmation. It is what rules out that a
failed reply decides a commit positively.

## Main definitions

* `Sound`: Undecided commits need one confirmation.
* `Anchored`: What a refused send leaves alone.
* `Outcome`: What committing a record can come to.

## Theorems

* `Move.sound`: Every move keeps soundness.
* `call_path`: Sending a request.
* `ownerSubmit_path`, `handleReplicate_path`: The two sides of a submit.
-/

namespace Tautq

open Status Node

/-- Commits that have not been decided need exactly one confirmation. -/
def Sound (m : Node) : Prop :=
  ∀ s ∈ m.qstates, s.fired = false → s.needed = 1

/-- What a refused send leaves alone. -/
structure Anchored (m m' : Node) : Prop where
  self : m'.self = m.self
  store : m'.store = m.store
  claims : m'.claims = m.claims
  qstates : m'.qstates = m.qstates

namespace Anchored

theorem refl (m : Node) : Anchored m m := ⟨rfl, rfl, rfl, rfl⟩

theorem trans {m₁ m₂ m₃ : Node} (h : Anchored m₁ m₂) (h' : Anchored m₂ m₃) : Anchored m₁ m₃ :=
  ⟨h'.self.trans h.self, h'.store.trans h.store, h'.claims.trans h.claims,
    h'.qstates.trans h.qstates⟩

theorem find {m m' : Node} (h : Anchored m m') (id : JobId) : m'.find id = m.find id := by
  rw [Node.find, Node.find, h.store]

end Anchored

namespace Quiet

variable {m m' : Node}

theorem refl (m : Node) : Quiet m m := by
  constructor <;> rfl

theorem find (h : Quiet m m') (id : JobId) : m'.find id = m.find id := by
  rw [Node.find, Node.find, h.store]

theorem anchored (h : Quiet m m') : Anchored m m' := ⟨h.self, h.store, h.claims, h.qstates⟩

theorem members (h : Quiet m m') : m'.members = m.members := by
  rw [Node.members, Node.members, h.cfg, h.self]

end Quiet

section Moves

variable {t : Trigger} {m₀ m m' : Node}

/-- Setting the counters of a decided commit keeps soundness. -/
theorem sound_set (q : Nat) (s : QState) (hs : s.fired = false → s.needed = 1) (h : Sound m) :
    ∀ x ∈ m.qstates.set q s, x.fired = false → x.needed = 1 := by
  intro x hx hf
  rcases List.mem_or_eq_of_mem_set hx with hold | hnew
  · exact h x hold hf
  · exact hnew ▸ hs (hnew ▸ hf)

@[simp] theorem submitCb_qstates (cb : SubmitCb) (st : Status) (id : JobId) :
    (m.submitCb cb st id).qstates = m.qstates := by
  cases cb <;> rfl

@[simp] theorem ackCb_qstates (cb : AckCb) (id : JobId) (success : Bool) (st : Status) :
    (m.ackCb cb id success st).qstates = m.qstates := by
  cases cb <;> rfl

theorem Move.sound (h : Move t m₀ m m') (hm : Sound m) : Sound m' := by
  cases h with
  | quiet _ h => rwa [Sound, h.qstates]
  | begin_ =>
    intro s hs hf
    rcases List.mem_append.mp hs with hold | hnew
    · exact hm s hold hf
    · rw [List.mem_singleton.mp hnew]
  | miss q s fired state hfired =>
    refine sound_set q _ (fun hf => ?_) hm
    refine hm s (List.mem_of_getElem? state) ?_
    by_contra hs
    exact absurd (hfired (by simpa using hs)) (by simpa using hf)
  | confirm | grant | unlease => exact sound_set _ _ (fun hf => by cases hf) hm
  | completed =>
    intro x hx
    rw [ackCb_qstates] at hx
    exact sound_set _ _ (fun hf => by cases hf) hm x hx
  | mintAlone | duplicate | refuse | submitted =>
    intro x hx
    rw [submitCb_qstates] at hx
    exact hm x hx
  | ackAlone | ackDone | ackPlain =>
    intro x hx
    rw [ackCb_qstates] at hx
    exact hm x hx
  | reboot => intro s hs; cases hs
  | _ => exact hm

theorem sound_of_path (h : Path (Move t m₀) m m') (hm : Sound m) : Sound m' :=
  h.keeps (fun _ _ hmove => hmove.sound) hm

/-- A bookkeeping change is a path. -/
theorem quiet_path (h : Quiet m m') : Path (Move t m₀) m m' :=
  .single (.quiet m m' h)

theorem Asks.quiet {dst : Endpoint} {body : Request} {k : Cont} (h : Quiet m m')
    (ha : Asks t m dst body k) : Asks t m' dst body k := by
  cases ha with
  | fwdSubmit p trigger admitted other =>
    rw [← h.members] at other ⊢
    exact .fwdSubmit p trigger admitted (h.self ▸ other)
  | replicate id slot _ j found peer entitled =>
    exact .replicate id slot dst j (h.find id ▸ found) (h.self ▸ peer)
      (by rw [h.self, h.claims]; exact entitled)
  | apply id slot _ j r q s found peer committed state carries =>
    refine .apply id slot dst j r q s (h.find id ▸ found) (h.self ▸ peer) ?_
      (h.qstates ▸ state) carries
    rw [Committed, h.store, h.self]
    exact committed
  | fwdAck id epoch leaseSeq success j trigger found other =>
    exact .fwdAck id epoch leaseSeq success j trigger (h.find id ▸ found) (h.self ▸ other)
  | claim id _ slot j st standing found peer =>
    rw [← h.self]
    exact .claim id dst slot j st (h.claims ▸ standing) (h.find id ▸ found) (h.self ▸ peer)
  | resync id _ slot j found peer => exact .resync id dst slot j (h.find id ▸ found) (h.self ▸ peer)
  | drainHandoff id => exact .drainHandoff id dst
  | fwdStatus id _ rest best => exact .fwdStatus id dst rest best

/-- A refused send takes a request number and nothing else. -/
theorem quiet_refused (m : Node) :
    Quiet m { m with
      nextReq := m.nextReq + 1
      sched := { m.sched with busy := m.sched.busy.tail } } := by
  constructor <;> first | rfl | exact Nat.le_succ _

/-- Sending a request: it goes out and its callback waits, or it is refused
    and the callback runs at once. -/
theorem call_path (dst : Endpoint) (body : Request) (k : Cont) (onBusy : Node → Node)
    (hask : Asks t m dst body k)
    (hbusy : ∀ m', Quiet m m' → Path (Move t m₀) m' (onBusy m')) :
    Path (Move t m₀) m (m.call dst body k onBusy) := by
  unfold Node.call
  split
  · exact (quiet_path (quiet_refused m)).trans (hbusy _ (quiet_refused m))
  · have hq : Quiet m { m with sched := { m.sched with busy := m.sched.busy.tail } } := by
      constructor <;> rfl
    exact (quiet_path hq).tail (.ask _ dst body k (hask.quiet hq))

/-- What a send leaves alone, provided its callback does. -/
theorem call_anchored (dst : Endpoint) (body : Request) (k : Cont) (onBusy : Node → Node)
    (hbusy : ∀ m', Quiet m m' → Anchored m' (onBusy m')) :
    Anchored m (m.call dst body k onBusy) := by
  unfold Node.call
  split
  · exact (quiet_refused m).anchored.trans (hbusy _ (quiet_refused m))
  · exact ⟨rfl, rfl, rfl, rfl⟩

end Moves

/-! ### Appending records -/

section Commit

variable {t : Trigger} {m₀ m : Node} {r : Record}

/-- What committing a record can come to. -/
inductive Outcome (m : Node) (r : Record) : Node × Bool → Prop where
  | ok (sched : Sched) (open_ : m.store.failed = false) :
      Outcome m r ({ m with store := m.store.append r, sched }, true)
  | failed (s : Store) (sched : Sched) (attempt : Attempt m.store r s) (closed : s.failed = true) :
      Outcome m r ({ m with store := s, sched }, false)

theorem commit_outcome (m : Node) (r : Record) : Outcome m r (m.commit r) := by
  unfold Node.commit Store.commit
  by_cases hf : m.store.failed = true
  · simp only [hf, if_true]
    exact .failed m.store _ (.refused hf) hf
  · have hopen : m.store.failed = false := by simpa using hf
    simp only [hopen, Bool.false_eq_true, if_false]
    cases m.sched.disk.headD .durable with
    | durable => exact .ok _ hopen
    | lost => exact .failed _ _ (.lost hopen) rfl
    | kept => exact .failed _ _ (.kept hopen) rfl

/-- A failed append is a path, a mint apart, which also uses up a number. -/
theorem spoil_path (s : Store) (sched : Sched) (hw : Writes t m₀ m r) (hr : ∀ j, r ≠ .submit j)
    (hk : Starts t m₀ m r) (h : Attempt m.store r s) (hs : s.failed = true) :
    Path (Move t m₀) m { m with store := s, sched } := by
  have hquiet : Quiet { m with store := s } { m with store := s, sched } := by
    constructor <;> rfl
  cases h with
  | durable open_ => exact absurd (open_.symm.trans hs) (by simp)
  | lost open_ => exact .head (.spoil m r none hw hr hk (Or.inl rfl) open_) (quiet_path hquiet)
  | kept open_ => exact .head (.spoil m r (some r) hw hr hk (Or.inr rfl) open_) (quiet_path hquiet)
  | refused => exact quiet_path hquiet

end Commit

/-! ### Resync -/

section Resync

variable {t : Trigger} {m₀ m : Node}

theorem afterOwnershipChange_path (id : JobId) (ht : t.seizes id = false) :
    Path (Move t m₀) m (m.afterOwnershipChange id) := by
  unfold Node.afterOwnershipChange
  cases hfind : m.find id with
  | none => exact .refl
  | some j =>
    simp only
    split
    · rename_i hother
      refine .head (.demote m id j hfind hother ht) (quiet_path ?_)
      constructor <;> rfl
    · split
      · exact quiet_path (by constructor <;> rfl)
      · exact .refl

theorem resyncCountdown_quiet (id : JobId) : Quiet m (m.resyncCountdown id) := by
  unfold Node.resyncCountdown
  split
  · exact .refl m
  · split <;> constructor <;> rfl

/-- A resync reply. A copy is adopted only in answer to the call being
    finished. -/
theorem onResyncReply_path (id : JobId) (code : Status) (body : Reply)
    (h : code = kCreated → Answers t m₀ (.resync id) code body ∧ m.store = m₀.store) :
    Path (Move t m₀) m (m.onResyncReply id code body) := by
  have hq := resyncCountdown_quiet (m := m) id
  unfold Node.onResyncReply
  refine (quiet_path hq).trans ?_
  simp only
  by_cases hcode : code = kCreated
  · rw [if_neg (by simp [hcode])]
    rcases h hcode with ⟨hans, hfirst⟩
    cases hbody : body.asJob with
    | none => exact .refl
    | some remote =>
      have hbody' : body = .job remote := by
        cases body with
        | job j => rw [Reply.asJob, Option.some.injEq] at hbody; rw [hbody]
        | empty | jobId | claimInfo => simp [Reply.asJob] at hbody
      simp only
      split
      · exact .refl
      · rename_i hid
        cases hfind : (m.resyncCountdown id).find id with
        | none => exact .refl
        | some l =>
          simp only
          split
          · rename_i hadv
            have hw : Writes t m₀ (m.resyncCountdown id) (.replicate remote) :=
              .adopt id remote l (hcode ▸ hbody' ▸ hans) (by simpa using hid) hfind hadv
                (hq.store.trans hfirst)
            have hout := commit_outcome (m.resyncCountdown id) (.replicate remote)
            generalize (m.resyncCountdown id).commit (.replicate remote) = c at hout ⊢
            refine Relation.ReflTransGen.trans ?_ (afterOwnershipChange_path id (hans.seizes id))
            cases hout with
            | ok sched open_ =>
              refine .head (.adopt _ _ hw ⟨remote, rfl⟩ open_) (quiet_path ?_)
              constructor <;> rfl
            | failed s sched attempt closed =>
              exact spoil_path s sched hw (by simp) (by simp [Starts]) attempt closed
          · exact .refl
  · rw [if_pos hcode]

theorem onResyncReply_busy (id : JobId) : Quiet m (m.onResyncReply id kBusy .empty) := by
  have h : m.onResyncReply id kBusy .empty = m.resyncCountdown id := by
    rw [Node.onResyncReply, if_pos (by decide)]
  rw [h]
  exact resyncCountdown_quiet id

/-- A resync sends requests and counts them, and does nothing else. -/
theorem resyncJob_spec (id : JobId) :
    Path (Move t m₀) m (m.resyncJob id) ∧ Anchored m (m.resyncJob id) ∧
      (m.resyncJob id).pendingSubmits = m.pendingSubmits := by
  unfold Node.resyncJob
  split
  · exact ⟨.refl, .refl m, rfl⟩
  · cases hfind : m.find id with
    | none => exact ⟨.refl, .refl m, rfl⟩
    | some j =>
      simp only
      -- Every state of the loop still holds the copy the targets were read from.
      have hloop := Path.foldl (R := Move t m₀)
        (P := fun m' => Anchored m m' ∧ m'.pendingSubmits = m.pendingSubmits)
        (fun n s => n.call s.2 (.resync id) (.resync id) (fun n => n.onResyncReply id kBusy .empty))
        ((j.peers m.self).filter (fun s => m.isAlive s.2))
        (fun m' s hs hm' => by
          refine ⟨call_path _ _ _ _ ?_ ?_, hm'.1.trans (call_anchored _ _ _ _ ?_), ?_⟩
          · refine .resync id s.2 s.1 j ((hm'.1.find id).trans hfind) ?_
            rw [hm'.1.self]
            exact (List.mem_filter.mp hs).1
          · exact fun m'' _ => quiet_path (onResyncReply_busy id)
          · exact fun m'' _ => (onResyncReply_busy id).anchored
          · rw [← hm'.2]
            unfold Node.call
            split
            · exact (onResyncReply_busy id).pendingSubmits
            · rfl)
        m ⟨.refl m, rfl⟩
      split
      · exact hloop
      · refine ⟨hloop.1.trans (quiet_path ?_), hloop.2.1.trans ⟨rfl, rfl, rfl, rfl⟩, hloop.2.2⟩
        constructor <;> rfl

end Resync

/-! ### Submits -/

section Submit

variable {t : Trigger} {m₀ m : Node}

theorem peers_slot {j : Job} {self : Endpoint} {s : Nat × Endpoint} (h : s ∈ j.peers self) :
    s.2 = j.replicas.slot s.1 := by
  have hs : s ∈ j.replicas.slots := (List.mem_filter.mp h).1
  simp only [ReplicaSet.slots, List.mem_cons, List.not_mem_nil, or_false] at hs
  rcases hs with rfl | rfl | rfl <;> rfl

theorem markReplicaOk_eq (id : JobId) (slot : Nat) :
    m.markReplicaOk id slot = { m with repair := (m.markReplicaOk id slot).repair } := by
  unfold Node.markReplicaOk
  split
  · rfl
  · simp only
    split <;> rfl

theorem submitResult_of_found {id : JobId} {ps : PendingSubmit} (st : Status)
    (h : m.pendingSubmits.lookup id = some ps) :
    m.submitResult id st =
      ({ m with pendingSubmits := m.pendingSubmits.erase id } : Node).submitCb ps.cb st id := by
  rw [Node.submitResult, h]

theorem countReplicate_anchored (id : JobId) (ok : Bool) (ps : PendingSubmit) :
    Anchored m (m.countReplicate id ok ps) := by
  have hres : ∀ (m' : Node) (st : Status), Anchored m m' → Anchored m (m'.submitResult id st) := by
    intro m' st hm'
    unfold Node.submitResult
    split
    · exact hm'
    · rename_i ps _
      cases ps.cb <;> exact ⟨hm'.self, hm'.store, hm'.claims, hm'.qstates⟩
  unfold Node.countReplicate
  simp only
  by_cases hneeded : (if ok = true then ps.needed - 1 else ps.needed) ≤ 0
  · rw [if_pos hneeded]
    exact hres _ _ ⟨rfl, rfl, rfl, rfl⟩
  · rw [if_neg hneeded]
    by_cases hlast : ps.outstanding - 1 = 0
    · rw [if_pos hlast]
      exact hres _ _ ⟨rfl, rfl, rfl, rfl⟩
    · rw [if_neg hlast]
      exact ⟨rfl, rfl, rfl, rfl⟩

/-- Counting a replicate reply; a positive one answers the call being
    finished. -/
theorem countReplicate_path (id : JobId) (ok : Bool) (ps : PendingSubmit)
    (found : m.pendingSubmits.lookup id = some ps)
    (h : ok = true → ∃ slot st body, (st = kCreated ∨ st = kDuplicate) ∧
      Answers t m₀ (.replicate id slot) st body) :
    Path (Move t m₀) m (m.countReplicate id ok ps) := by
  unfold Node.countReplicate
  simp only
  have hcount := @Move.countSubmit t m₀ m id ps
    (if ok then ps.needed - 1 else ps.needed) (ps.outstanding - 1) found (by
      cases ok with
      | false => exact Or.inl rfl
      | true => exact Or.inr (h rfl))
  refine .head hcount ?_
  by_cases hneeded : (if ok = true then ps.needed - 1 else ps.needed) ≤ 0
  · rw [if_pos hneeded, submitResult_of_found kCreated (AList.lookup_insert _)]
    exact .single (.submitted _ id _ kCreated (AList.lookup_insert _) (Or.inl ⟨rfl, hneeded⟩))
  · rw [if_neg hneeded]
    by_cases hlast : ps.outstanding - 1 = 0
    · rw [if_pos hlast, submitResult_of_found kNoQuorum (AList.lookup_insert _)]
      exact .single (.submitted _ id _ kNoQuorum (AList.lookup_insert _) (Or.inr rfl))
    · rw [if_neg hlast]

theorem onReplicateReply_path (id : JobId) (slot : Nat) (st : Status) (body : Reply)
    (h : st = kCreated ∨ st = kDuplicate →
      Answers t m₀ (.replicate id slot) st body ∧ m.store = m₀.store) :
    Path (Move t m₀) m (m.onReplicateReply id slot st) := by
  unfold Node.onReplicateReply
  by_cases hok : st = kCreated ∨ st = kDuplicate
  · rcases h hok with ⟨hans, hfirst⟩
    simp only [hok, decide_true, if_true]
    have hmark : Path (Move t m₀) m (m.markReplicaOk id slot) := by
      rw [markReplicaOk_eq]
      refine .single (.mark m id slot (.replicate st body hok hans) hfirst ?_)
      intro member r q body' happly
      cases hans.unique happly
    refine hmark.trans ?_
    have hpend : (m.markReplicaOk id slot).pendingSubmits = m.pendingSubmits := by
      rw [markReplicaOk_eq]
    cases hps : m.pendingSubmits.lookup id with
    | none => exact .refl
    | some ps =>
      exact countReplicate_path id true ps (hpend ▸ hps) (fun _ => ⟨slot, st, body, hok, hans⟩)
  · simp only [hok, decide_false, Bool.false_eq_true, if_false]
    -- A stale epoch asks around first; the submit waiting on the reply is untouched by that.
    have hmid : Path (Move t m₀) m (if st = kStaleEpoch then m.resyncJob id else m) ∧
        (if st = kStaleEpoch then m.resyncJob id else m).pendingSubmits = m.pendingSubmits := by
      split
      · exact ⟨(resyncJob_spec id).1, (@resyncJob_spec t m₀ m id).2.2⟩
      · exact ⟨.refl, rfl⟩
    refine hmid.1.trans ?_
    cases hps : m.pendingSubmits.lookup id with
    | none => exact .refl
    | some ps => exact countReplicate_path id false ps (hmid.2 ▸ hps) (fun h => by cases h)

theorem onReplicateReply_busy (id : JobId) (slot : Nat) :
    Path (Move t m₀) m (m.onReplicateReply id slot kBusy) ∧
      Anchored m (m.onReplicateReply id slot kBusy) := by
  refine ⟨onReplicateReply_path id slot kBusy .empty (fun h => absurd h (by decide)), ?_⟩
  unfold Node.onReplicateReply
  simp only [show ¬ (kBusy = kCreated ∨ kBusy = kDuplicate) by decide,
    show ¬ kBusy = kStaleEpoch by decide, decide_false, Bool.false_eq_true, if_false]
  split
  · exact .refl m
  · exact countReplicate_anchored _ _ _

/-- Sending the stored copy to a peer slot. -/
theorem sendReplicate_spec (id : JobId) (slot : Nat)
    (h : ∀ j, m.find id = some j → (slot, j.replicas.slot slot) ∈ j.peers m.self ∧
      (j.owner = m.self ∨ id ∈ m.claims)) :
    Path (Move t m₀) m (m.sendReplicate id slot) ∧ Anchored m (m.sendReplicate id slot) := by
  unfold Node.sendReplicate
  cases hfind : m.find id with
  | none => exact ⟨.refl, .refl m⟩
  | some j =>
    rcases h j hfind with ⟨hpeer, hent⟩
    exact ⟨call_path _ _ _ _ (.replicate id slot _ j hfind hpeer hent)
        (fun m' _ => (onReplicateReply_busy id slot).1),
      call_anchored _ _ _ _
        (fun m' _ => (@onReplicateReply_busy t m₀ m' id slot).2)⟩

/-- Sending the stored copy to some of the peer slots in turn. -/
theorem sendReplicates_spec (id : JobId) (j : Job) (xs : List (Nat × Endpoint))
    (hfind : m.find id = some j) (hent : j.owner = m.self ∨ id ∈ m.claims)
    (hxs : ∀ s ∈ xs, s ∈ j.peers m.self) :
    Path (Move t m₀) m (xs.foldl (fun n s => n.sendReplicate id s.1) m) ∧
      Anchored m (xs.foldl (fun n s => n.sendReplicate id s.1) m) := by
  refine Path.foldl (P := fun m' => Anchored m m') _ xs (fun m' s hs hm' => ?_) m (.refl m)
  have hpeer := hxs s hs
  have hsend := @sendReplicate_spec t m₀ m' id s.1 (fun j' hj' => by
    have hj : j' = j := Option.some.inj (hj'.symm.trans ((hm'.find id).trans hfind))
    rw [hj, hm'.self, hm'.claims, ← peers_slot hpeer]
    exact ⟨hpeer, hent⟩)
  exact ⟨hsend.1, hm'.trans hsend.2⟩

theorem find_append_submit (s : Store) (j : Job) :
    (s.append (.submit j)).table.find j.id = some j := by
  refine (Table.find_apply_self s.table (.submit j)).trans ?_
  cases s.table.find (Record.submit j).jobId <;> rfl

/-- The owner's side of a submit. -/
theorem ownerSubmit_path (p : SubmitParams) (cb : SubmitCb) (hq : Quiet m₀ m)
    (hsub : Submits t m p cb) (hsub₀ : Submits t m₀ p cb) :
    Path (Move t m₀) m (m.ownerSubmit p cb) := by
  unfold Node.ownerSubmit
  cases hidem : m.store.table.findByIdem p.idemKey with
  | some existing => exact .single (.duplicate m p cb existing hsub hidem hq.store)
  | none =>
    simp only
    split
    · exact .single (.refuse m p cb hsub₀ {})
    · rename_i hadm
      have hw : Writes t m₀ m (.submit (m.mintJob p)) :=
        .mint p cb hsub hidem hq.store hq.nextJobSeq (Bool.eq_false_iff.mpr hadm) hq.peers
      have hout := commit_outcome ({ m with nextJobSeq := m.nextJobSeq + 1 } : Node)
        (.submit (m.mintJob p))
      generalize ({ m with nextJobSeq := m.nextJobSeq + 1 } : Node).commit
        (.submit (m.mintJob p)) = c at hout ⊢
      cases hout with
      | ok sched open_ =>
        simp only [if_true]
        have hfind : (m.store.append (.submit (m.mintJob p))).table.find (m.mintJob p).id =
            some (m.mintJob p) := find_append_submit _ _
        unfold Node.startReplication
        rw [Node.find, hfind]
        simp only
        by_cases hpeers : (m.mintJob p).peers m.self = []
        · -- No peer: the submit is answered by the bookkeeping itself.
          simp only [hpeers, List.foldl_nil, Node.trackSubmit, if_true]
          rw [submitResult_of_found kCreated (AList.lookup_insert _)]
          refine .head (.mintAlone m p cb { cb, needed := 0, outstanding := ([] : List
            (Nat × Endpoint)).length } hw hsub open_ hpeers) (quiet_path ?_)
          cases cb <;> constructor <;> rfl
        · simp only [Node.trackSubmit, if_neg hpeers]
          refine .head (.mint m p cb hw hsub open_ hpeers) ?_
          refine (quiet_path ?_).trans (sendReplicates_spec (m.mintJob p).id (m.mintJob p)
            _ ?_ ?_ ?_).1
          · constructor <;> rfl
          · exact hfind
          · exact Or.inl rfl
          · exact fun s hs => hs
      | failed s sched attempt closed =>
        simp only [Bool.false_eq_true, if_false]
        refine .head (.mintFail m p s hw attempt closed) ?_
        refine .tail (quiet_path ?_) (.refuse _ p cb hsub₀ {})
        constructor <;> rfl

theorem submit_path (p : SubmitParams) (hq : Quiet m₀ m) (ht : t = .input (.submit p)) :
    Path (Move t m₀) m (m.submit p) := by
  unfold Node.submit
  split
  · exact .single (.note m _ ⟨by decide, by decide⟩)
  · rename_i hadm
    have hadm' : p.admitted = true := by simpa using hadm
    simp only
    split
    · rename_i howner
      exact ownerSubmit_path p _ hq (.client ht hadm' howner)
        (.client ht hadm' (by rw [← hq.members, ← hq.self]; exact howner))
    · rename_i hother
      split
      · exact .single (.note m _ ⟨by decide, by decide⟩)
      · refine call_path _ _ _ _ (.fwdSubmit p ht hadm' hother) (fun m' _ => ?_)
        exact .single (.note m' _ ⟨by decide, by decide⟩)

theorem handleFwdSubmit_path (ctx : ReqCtx) (p : SubmitParams) (hq : Quiet m₀ m)
    (ht : t.ctx = some ctx) (ha : ctx.asked = .fwdSubmit p) :
    Path (Move t m₀) m (m.handleFwdSubmit ctx p) := by
  unfold Node.handleFwdSubmit
  split
  · exact .single (.plain m ctx kInvalid ht (Or.inl (by decide)))
  · exact ownerSubmit_path p _ hq (.forwarded ctx ht ha) (.forwarded ctx ht ha)

theorem Serves.not_submit {ctx : ReqCtx} {r : Record} {body : Reply}
    (h : Serves t m₀ m ctx r body) : ∀ j, r ≠ .submit j := by
  rintro j rfl
  cases h with
  | apply _ _ _ _ _ fence => simp [Record.fence] at fence

/-- A record appended for a request is acknowledged, or the failure reported. -/
theorem serve_path (ctx : ReqCtx) (r : Record) (hserves : Serves t m₀ m ctx r .empty)
    (ht : t.ctx = some ctx) :
    Path (Move t m₀) m
      (if (m.commit r).2 then (m.commit r).1.respond ctx kCreated .empty
        else (m.commit r).1.respond ctx kNoQuorum .empty) := by
  have hout := commit_outcome m r
  generalize m.commit r = c at hout ⊢
  cases hout with
  | ok sched open_ =>
    refine .head (.serve m ctx r .empty hserves open_) (quiet_path ?_)
    constructor <;> rfl
  | failed s sched attempt closed =>
    have hstarts : Starts t m₀ m r := fun _ _ _ _ => Or.inl ⟨ctx, .empty, hserves⟩
    exact (spoil_path s sched (.serve ctx r .empty hserves) hserves.not_submit hstarts attempt
      closed).tail (.plain _ ctx kNoQuorum ht (Or.inl (by decide)))

theorem handleReplicate_path (ctx : ReqCtx) (j : Job) (hq : Quiet m₀ m) (ht : t.ctx = some ctx)
    (ha : ctx.asked = .replicate j) : Path (Move t m₀) m (m.handleReplicate ctx j) := by
  unfold Node.handleReplicate Node.storeCopy
  cases hfind : m.find j.id with
  | none =>
    exact serve_path ctx _ (.copy j ht ha (fun l hl => by rw [hfind] at hl; cases hl) hq.store) ht
  | some known =>
    simp only
    split
    · exact .single (.plain m ctx kStaleEpoch ht (Or.inl (by decide)))
    · rename_i hfence
      refine serve_path ctx _ (.copy j ht ha (fun l hl => ?_) hq.store) ht
      rw [← Option.some.inj (hfind.symm.trans hl)]
      exact Nat.le_of_not_lt hfence

/-- Answering with the stored copy. -/
theorem show_path (ctx : ReqCtx) (id : JobId) (ht : t.ctx = some ctx)
    (ha : ctx.asked = .resync id ∨ ctx.asked = .fwdStatus id) :
    Path (Move t m₀) m (match m.find id with
      | none => m.respond ctx kUnknownJob .empty
      | some j => m.respond ctx kCreated (.job j)) := by
  cases hfind : m.find id with
  | none => exact .single (.plain m ctx kUnknownJob ht (Or.inl (by decide)))
  | some j => exact .single (.show_ m ctx id j ht ha hfind)

theorem queryStatusTarget_path (id : JobId) (targets : List Endpoint) (best : Option Job) :
    Path (Move t m₀) m (queryStatusTarget id targets best m) := by
  induction targets generalizing best m with
  | nil => exact .single (.note m _ trivial)
  | cons target rest ih =>
    unfold Node.queryStatusTarget
    split
    · exact ih _
    · exact call_path _ _ _ _ (.fwdStatus id target rest best) (fun m' _ => ih best)

end Submit

end Tautq
