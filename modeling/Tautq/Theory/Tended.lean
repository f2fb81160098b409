import Tautq.Theory.Track

/-!
# Keeping Track

Each handler of a node leaves all jobs of the node tracked. The handlers that
take a job out of the bookkeeping are followed to the point where they put it
back: a lease from the pop of the queue to the pending commit, an expiry from
the erased deadline to the queue, a takeover from the erased claim to the queue
or the deadline.

Two replies cannot be followed so. A stale answer to a claim closes it and
relies on a resync to find the owner, and a full copy may make this node the
owner of a job it has no bookkeeping for. `Node.bears` excludes them.

## Main definitions

* `Node.bears`: What may reach a node that keeps track.

## Theorems

* `lease_tended`, `expireJob_tended`, `ownerAck_tended`: The owner's transitions.
* `handleReplicate_tended`, `handleApply_tended`, `onResyncReply_tended`: Copies
  and records from other nodes.
* `startTakeover_tended`, `onClaimReply_tended`, `handleClaim_tended`: Takeovers.
* `restart_tended`: A new incarnation sets up every job.
* `react_tended`: All of these.
-/

namespace Tautq

open Status

/-! ### Leases and acks -/

section Lease

variable {n : Node} {skip : JobId → Prop} {id : JobId}

/-- The scan of the queue drops stale entries only, and the job it picks. -/
theorem scanReady_keeps (n : Node) (k : Nat) (queue : List JobId) (x : JobId) (hx : x ∈ queue) :
    x ∈ (n.scanReady k queue).2 ∨ (∃ j, (n.scanReady k queue).1 = some j ∧ n.find x = some j) ∨
      ∀ j, n.find x = some j → j.owner = n.self → j.state ≠ .ready := by
  induction k generalizing queue with
  | zero => exact Or.inl hx
  | succ k ih =>
    cases queue with
    | nil => cases hx
    | cons id queue =>
      unfold Node.scanReady
      cases hfind : n.find id with
      | none =>
        rcases List.mem_cons.mp hx with rfl | hx
        · refine Or.inr (Or.inr (fun j hj => ?_))
          rw [hfind] at hj
          cases hj
        · exact ih queue hx
      | some l =>
        simp only
        split
        · rename_i hstale
          rcases List.mem_cons.mp hx with rfl | hx
          · refine Or.inr (Or.inr (fun j hj ho hs => ?_))
            rw [hfind] at hj
            cases hj
            exact hstale.elim (fun h => h hs) (fun h => h ho)
          · exact ih queue hx
        · have hpick : x ∈ queue ∨ (∃ j, some l = some j ∧ n.find x = some j) ∨
              ∀ j, n.find x = some j → j.owner = n.self → j.state ≠ .ready := by
            rcases List.mem_cons.mp hx with rfl | hx
            · exact Or.inr (Or.inl ⟨l, rfl, hfind⟩)
            · exact Or.inl hx
          split
          · exact hpick
          · split
            · refine ih _ ?_
              rcases List.mem_cons.mp hx with rfl | hx <;> simp [*]
            · exact hpick

theorem leaseJob_tended {j : Job} (hj : n.find j.id = some j) (hs : j.state = .ready)
    (h : Tended (fun x => skip x ∨ x = j.id) n) (worker : Nat) :
    Tended skip (n.leaseJob j worker) := by
  unfold Node.leaseJob
  split
  · refine (emit_eases _).tended ?_
    have hup : Eases n { n with ready := j.id :: n.ready } :=
      ⟨rfl, rfl, rfl, List.subset_cons_self _ _, fun _ h => h, fun _ h => h⟩
    refine (hup.tended h).restore (fun _ _ => ⟨fun _ _ _ _ => Or.inl (List.mem_cons_self),
      fun i hi _ hl => ?_⟩)
    obtain rfl : j = i := Option.some.inj (hj.symm.trans hi)
    rw [hs] at hl
    cases hl
  · simp only
    split
    · exact (emit_eases _).tended
        (quorumCommit_terminal (by simp) rfl hj (on_deadLetter_self j) h)
    · have hup : Eases n { n with notBefore := n.notBefore.erase j.id } :=
        .of_eq rfl rfl rfl rfl rfl rfl
      refine quorumCommit_lease ((hup.find j.id).trans hj) ?_ (hup.tended h)
      simp [Record.on, hs]

theorem lease_tended (h : Tended skip n) (worker : Nat) : Tended skip (n.lease worker) := by
  unfold Node.lease
  split
  · exact (emit_eases _).tended h
  · -- What the scan dropped is stale or the job it picked.
    have hscan : Tended (fun x => skip x ∨ ∃ j, (n.scanReady n.ready.length n.ready).1 = some j ∧
        n.find x = some j) { n with ready := (n.scanReady n.ready.length n.ready).2 } := by
      intro hopen x hx
      have hn := h hopen x (fun hs => hx (Or.inl hs))
      refine ⟨fun j hj ho hs => ?_, hn.2⟩
      rcases hn.1 j hj ho hs with hr | hc
      · rcases scanReady_keeps n n.ready.length n.ready x hr with hk | hp | hstale
        · exact Or.inl hk
        · exact absurd (Or.inr hp) hx
        · exact absurd hs (hstale j hj ho)
      · exact Or.inr hc
    simp only
    split
    · rename_i hnone
      refine (emit_eases _).tended (hscan.mono ?_)
      rintro x (hx | ⟨j, hj, _⟩)
      · exact hx
      · rw [hnone] at hj
        cases hj
    · rename_i j hpick
      rcases scanReady_some n _ _ j hpick with ⟨hj, hs, -⟩
      have hothers : Tended (fun x => skip x ∨ x = j.id) _ := hscan.mono ?_
      · exact leaseJob_tended (n := { n with ready := (n.scanReady n.ready.length n.ready).2 }) hj
          hs hothers worker
      rintro x (hx | ⟨i, hi, hfind⟩)
      · exact Or.inl hx
      · rw [hpick] at hi
        cases hi
        exact Or.inr (n.store.find_id hfind).symm

/-- Taking one job out of the deadlines. -/
theorem Tended.disarm (h : Tended skip n) (id : JobId) :
    Tended (fun x => skip x ∨ x = id) { n with leaseDeadline := n.leaseDeadline.erase id } := by
  intro hopen x hx
  have hn := h hopen x (fun hs => hx (Or.inl hs))
  refine ⟨hn.1, fun j hj ho hl => ?_⟩
  rcases hn.2 j hj ho hl with hd | hc | hp
  · exact Or.inl (AList.mem_erase.mpr ⟨fun he => hx (Or.inr he), hd⟩)
  · exact Or.inr (Or.inl hc)
  · exact Or.inr (Or.inr hp)

theorem expireJob_tended (h : Tended skip n) (id : JobId) : Tended skip (n.expireJob id) := by
  have hdis := h.disarm id
  unfold Node.expireJob
  simp only
  split
  · rename_i hnone
    exact hdis.restore (fun _ _ => tracks_of_none hnone)
  · rename_i j hj
    split
    · rename_i hidle
      refine hdis.restore (fun hopen hs => ⟨(h hopen id hs).1, fun i hi ho hl => ?_⟩)
      obtain rfl : j = i := Option.some.inj (hj.symm.trans hi)
      exact (hidle.elim (fun hne => hne hl) (fun hne => hne ho)).elim
    · split
      · exact quorumCommit_terminal (by simp) rfl hj (on_deadLetter_self j) hdis
      · rcases quorumCommit_tended (g := (· ≠ .leased)) (d := .ignore) (by simp) (by simp) rfl
          (l := j) hj (on_expire_self j) ((emit_eases (.expired id j.leaseSeq n.now)).tended hdis)
          with ⟨ht, hr⟩
        exact ht.requeue hr _

theorem expiryTick_tended (h : Tended skip n) : Tended skip n.expiryTick := by
  have hfold : ∀ (ids : List JobId) (m : Node), Tended skip m →
      Tended skip (ids.foldl Node.expireJob m) := by
    intro ids
    induction ids with
    | nil => exact fun _ hm => hm
    | cons id ids ih => exact fun m hm => ih _ (expireJob_tended hm id)
  exact hfold _ _ ((walkJobs_eases _).tended h)

theorem nackJob_tended {j : Job} (h : Tended skip n) (hj : n.find id = some j)
    (epoch leaseSeq : Nat) (cb : AckCb) : Tended skip (n.nackJob id j epoch leaseSeq cb) := by
  unfold Node.nackJob
  refine (ackCb_eases _ _ _ _).tended ?_
  rcases quorumCommit_tended (g := (· ≠ .leased)) (d := .ignore) (by simp) (by simp) rfl
    (l := j) hj (on_expire_self j)
    ((emit_eases (.nacked id epoch leaseSeq n.now)).tended (h.disarm id)) with ⟨ht, hr⟩
  exact ht.requeue hr _

theorem completeJob_tended {j : Job} (h : Tended skip n) (hj : n.find id = some j)
    (epoch leaseSeq : Nat) (cb : AckCb) : Tended skip (n.completeJob id j epoch leaseSeq cb) := by
  have hup : Eases { n with leaseDeadline := n.leaseDeadline.erase id }
      (({ n with leaseDeadline := n.leaseDeadline.erase id
                 notBefore := n.notBefore.erase id } :
                 Node).emit (.doneStarted id epoch leaseSeq)) :=
    .of_eq rfl rfl rfl rfl rfl rfl
  exact quorumCommit_terminal (by simp) rfl hj (on_done_own j _) (hup.tended (h.disarm id))

theorem ownerAck_tended (h : Tended skip n) (epoch leaseSeq : Nat) (success : Bool) (cb : AckCb) :
    Tended skip (n.ownerAck id epoch leaseSeq success cb) := by
  unfold Node.ownerAck
  split
  · exact (ackCb_eases _ _ _ _).tended h
  · rename_i j hj
    split_ifs
    · exact (ackCb_eases _ _ _ _).tended h
    · exact (ackCb_eases _ _ _ _).tended h
    · exact (ackCb_eases _ _ _ _).tended h
    · exact nackJob_tended h hj _ _ _
    · exact completeJob_tended h hj _ _ _
    · exact (ackCb_eases _ _ _ _).tended h

end Lease

/-! ### Full copies and applied records -/

section Copies

variable {n : Node} {skip : JobId → Prop} {id : JobId}

/-- Dropping one job from the bookkeeping. -/
theorem Tended.drop (h : Tended (fun x => skip x ∨ x = id) n) :
    Tended (fun x => skip x ∨ x = id) { n with
      leaseDeadline := n.leaseDeadline.erase id
      notBefore := n.notBefore.erase id
      repair := n.repair.erase id
      claims := n.claims.erase id } := by
  intro hopen x hx
  have hn := h hopen x hx
  have hne : x ≠ id := fun he => hx (Or.inr he)
  refine ⟨fun j hj ho hs => ?_, fun j hj ho hl => ?_⟩
  · exact (hn.1 j hj ho hs).imp_right (fun hc => AList.mem_erase.mpr ⟨hne, hc⟩)
  · rcases hn.2 j hj ho hl with hd | hc | hp
    · exact Or.inl (AList.mem_erase.mpr ⟨hne, hd⟩)
    · exact Or.inr (Or.inl (AList.mem_erase.mpr ⟨hne, hc⟩))
    · exact Or.inr (Or.inr hp)

/-- A job that went to another owner is dropped, and a ready one that came here is queued. -/
theorem afterOwnershipChange_tended (h : Tended (fun x => skip x ∨ x = id) n)
    (hid : n.store.failed = false → ∀ j, n.find id = some j → j.owner = n.self →
    j.state ≠ .leased) : Tended skip (n.afterOwnershipChange id) := by
  unfold Node.afterOwnershipChange
  split
  · rename_i hnone
    exact h.restore (fun _ _ => tracks_of_none hnone)
  · rename_i j hj
    split
    · rename_i howner
      refine h.drop.restore (fun _ _ => tracks_of_owner (fun i hi => ?_))
      obtain rfl : j = i := Option.some.inj (hj.symm.trans hi)
      exact howner
    · split
      · exact ((pushReady_eases _).tended h).restore (fun hopen _ =>
          ⟨fun _ _ _ _ => Or.inl (by simp), fun i hi ho hl => absurd hl (hid hopen i hi ho)⟩)
      · rename_i hready
        refine h.restore (fun hopen _ => ⟨fun i hi _ hs => ?_, fun i hi ho hl => ?_⟩)
        · obtain rfl : j = i := Option.some.inj (hj.symm.trans hi)
          exact absurd hs hready
        · exact absurd hl (hid hopen i hi ho)

/-- Committing a record that leaves the job with another owner, terminal, or as it was. -/
theorem Tended.pass (h : Tended skip n) {r : Record}
    (hr : ∀ j, r.effect (n.find r.jobId) = some j → j.owner = n.self → j.terminal = false →
      n.find r.jobId = some j) : Tended skip (n.commit r).1 := by
  refine (h.commit r).restore (fun hopen hs => ?_)
  have hn := h (commit_open hopen).1 _ hs
  refine ⟨fun j hj ho hstate => ?_, fun j hj ho hstate => ?_⟩ <;>
    rw [find_commit hopen, if_pos rfl] at hj <;>
    have hwas := hr j hj ho (by simp [Job.terminal, hstate])
  · exact hn.1 j hwas ho hstate
  · exact hn.2 j hwas ho hstate

/-- An active copy that names this node as the owner does not advance the stored one. -/
def Node.outranks (n : Node) (j : Job) : Prop :=
  j.owner = n.self → j.terminal = false → ∃ l ∈ n.find j.id, jobAdvances l j = false

/-- What a full copy leaves of such a job. -/
theorem effect_replicate {j k : Job} (h : n.outranks j)
    (hk : (Record.replicate j).effect (n.find j.id) = some k) (ho : k.owner = n.self)
    (hact : k.terminal = false) : n.find j.id = some k := by
  unfold Node.outranks at h
  generalize n.find j.id = l? at h hk ⊢
  cases l? with
  | none =>
    obtain rfl : j = k := Option.some.inj hk
    rcases h ho hact with ⟨l, hl, -⟩
    cases hl
  | some l =>
    simp only [Record.effect, Record.on, Option.some.injEq] at hk
    split at hk
    · rename_i hadv
      subst hk
      rcases h ho hact with ⟨l', hl, hback⟩
      cases hl
      rw [hadv] at hback
      cases hback
    · rw [hk]

theorem storeCopy_tended (h : Tended skip n) (ctx : ReqCtx) {j : Job}
    (hj : n.outranks j) :
    Tended skip (n.storeCopy ctx j) := by
  have hc := h.pass (r := .replicate j) (fun k hk ho hact => effect_replicate hj hk ho hact)
  unfold Node.storeCopy
  simp only
  split <;> exact (respond_eases _ _ _).tended hc

theorem handleReplicate_tended (h : Tended skip n) (ctx : ReqCtx) {j : Job}
    (hj : n.outranks j) :
    Tended skip (n.handleReplicate ctx j) := by
  unfold Node.handleReplicate
  split
  · exact storeCopy_tended h ctx hj
  · split
    · exact (respond_eases _ _ _).tended h
    · exact storeCopy_tended h ctx hj

theorem onResyncReply_tended (h : Tended skip n) (code : Status) {body : Reply}
    (hj : ∀ j, body.asJob = some j → n.outranks j) :
    Tended skip (n.onResyncReply id code body) := by
  have hup := resyncCountdown_eases (n := n) id
  unfold Node.onResyncReply
  simp only
  split
  · exact hup.tended h
  · split
    · exact hup.tended h
    · rename_i remote hremote
      split
      · exact hup.tended h
      · rename_i hsame
        split
        · exact hup.tended h
        · rename_i l hl
          split
          · rename_i hadv
            refine afterOwnershipChange_tended (((hup.tended h).commit _).mono ?_)
              (fun hopen j hfind ho hleased => ?_)
            · rintro x (hx | rfl)
              · exact Or.inl hx
              · exact Or.inr (not_not.mp hsame)
            · -- The copy was adopted, so it is not an active one of this node.
              rw [find_commit hopen, Record.jobId, if_pos (not_not.mp hsame), hl] at hfind
              obtain rfl : _ = j := Option.some.inj hfind
              rw [Record.on, if_pos hadv] at ho hleased
              rcases hj remote hremote (ho.trans hup.self) (by simp [Job.terminal, hleased]) with
                ⟨l', hl', hback⟩
              rw [not_not.mp hsame, ← hup.find, hl] at hl'
              cases hl'
              rw [hadv] at hback
              cases hback
          · exact hup.tended h

/-- A record applied for another owner. -/
theorem handleApply_tended (h : Tended skip n) {ctx : ReqCtx} (hsrc : ctx.src ≠ n.self) {r : Record}
    (hr : r.isTakeover = false) : Tended skip (n.handleApply ctx r) := by
  unfold Node.handleApply
  split
  · exact (respond_eases _ _ _).tended h
  · rename_i epoch hfence
    split
    · exact (respond_eases _ _ _).tended h
    · rename_i j hj
      split
      · exact (respond_eases _ _ _).tended h
      · split
        · exact (respond_eases _ _ _).tended h
        · rename_i howner
          have hj' : ctx.src = j.owner := by
            by_contra hne
            exact howner ⟨hne, hr⟩
          have hc : Tended skip (n.commit r).1 := by
            refine h.pass (fun k hk ho _ => ?_)
            rw [hj] at hk
            obtain rfl : _ = k := Option.some.inj hk
            have hfull : r.full = none := by
              cases r with
              | submit | replicate => cases hfence
              | _ => rfl
            rw [Record.on_owner r j hfull (by rintro i e o rfl; cases hr), ← hj'] at ho
            exact absurd ho hsrc
          unfold Node.applyRecord
          simp only
          split <;> exact (respond_eases _ _ _).tended hc

end Copies

/-! ### Claims -/

section Claims

variable {n : Node} {skip : JobId → Prop} {id : JobId}

/-- Closing one claim. -/
theorem Tended.unclaim (h : Tended skip n) (id : JobId) :
    Tended (fun x => skip x ∨ x = id) { n with claims := n.claims.erase id } := by
  intro hopen x hx
  have hn := h hopen x (fun hs => hx (Or.inl hs))
  have hne : x ≠ id := fun he => hx (Or.inr he)
  refine ⟨fun j hj ho hs => ?_, fun j hj ho hl => ?_⟩
  · exact (hn.1 j hj ho hs).imp_right (fun hc => AList.mem_erase.mpr ⟨hne, hc⟩)
  · rcases hn.2 j hj ho hl with hd | hc | hp
    · exact Or.inl hd
    · exact Or.inr (Or.inl (AList.mem_erase.mpr ⟨hne, hc⟩))
    · exact Or.inr (Or.inr hp)

/-- Becoming the active owner queues or arms the copy. -/
theorem activate_tended (h : Tended (fun x => skip x ∨ x = id) n) :
    Tended skip (n.activate id) := by
  unfold Node.activate
  split
  · rename_i hnone
    exact h.restore (fun _ _ => tracks_of_none hnone)
  · rename_i j hj
    have hfin : ∀ m : Node, Eases m (({ m with repair := m.repair.insert id 0 } : Node).emit
        (.finalized j)) := fun _ => .of_eq rfl rfl rfl rfl rfl rfl
    refine (hfin _).tended ?_
    split
    · rename_i hs
      refine ((pushReady_eases _).tended h).restore
        (fun _ _ => ⟨fun _ _ _ _ => Or.inl (by simp), fun i hi _ hl => ?_⟩)
      obtain rfl : j = i := Option.some.inj (hj.symm.trans hi)
      rw [hs] at hl
      cases hl
    · rename_i hnot
      have hqueue : n.queues id := by
        intro i hi _ hs
        obtain rfl : j = i := Option.some.inj (hj.symm.trans hi)
        exact absurd hs hnot
      split
      · have hup := insertDeadline_eases (n := n) id (n.now + j.visibilityMs)
        exact (hup.tended h).restore
          (fun _ _ => ⟨hup.queues hqueue, fun _ _ _ _ => Or.inl (by simp [AList.mem_insert])⟩)
      · rename_i harmed
        refine h.restore (fun _ _ => ⟨hqueue, fun i hi _ hl => ?_⟩)
        obtain rfl : j = i := Option.some.inj (hj.symm.trans hi)
        exact Or.inl (by_contra (fun hout => harmed ⟨hl, hout⟩))

theorem inherit_tended {j : Job} (h : Tended (fun x => skip x ∨ x = id) n) (st : ClaimState) :
    Tended (fun x => skip x ∨ x = id) (n.inherit id st j) := by
  have harm : ∀ m : Node, Tended (fun x => skip x ∨ x = id) m →
      Tended (fun x => skip x ∨ x = id) (if Node.rearms st j then
        { m with leaseDeadline := m.leaseDeadline.insert id (m.now + j.visibilityMs) } else m) := by
    intro m hm
    split
    · exact (insertDeadline_eases _ _).tended hm
    · exact hm
  unfold Node.inherit
  refine harm _ ?_
  split
  · exact h
  · rename_i r hr
    refine (h.commit r).mono ?_
    rintro x (hx | rfl)
    · exact hx
    · exact Or.inr (inherits_spec hr).1

theorem finalizeTakeover_tended (h : Tended (fun x => skip x ∨ x = id) n) (hid : id ∈ n.claims) :
    Tended skip (n.finalizeTakeover id) := by
  have hclose : Tended (fun x => skip x ∨ x = id) { n with claims := n.claims.erase id } := by
    refine (h.unclaim id).mono ?_
    rintro x (hx | hx)
    · exact hx
    · exact Or.inr hx
  unfold Node.finalizeTakeover
  split
  · rename_i hnone
    exact absurd hid (AList.lookup_eq_none.mp hnone)
  · simp only
    split
    · rename_i hnone
      exact hclose.restore (fun _ _ => tracks_of_none hnone)
    · rename_i j hj
      split
      · rename_i howner
        refine hclose.restore (fun _ _ => tracks_of_owner (fun i hi => ?_))
        obtain rfl : j = i := Option.some.inj (hj.symm.trans hi)
        exact howner
      · exact activate_tended (inherit_tended hclose _)

theorem onClaimGrant_tended (h : Tended skip n) (dst : Endpoint) (st : ClaimState) (body : Reply) :
    Tended skip (n.onClaimGrant id dst st body) := by
  have hcount : ∀ st' : ClaimState, Tended skip (if st'.needed ≤ st'.acks then
      ({ n with claims := n.claims.insert id st' } : Node).finalizeTakeover id
      else { n with claims := n.claims.insert id st' }) := by
    intro st'
    split
    · refine finalizeTakeover_tended (((insertClaim_eases _ st').tended h).mono (fun _ => Or.inl))
        ?_
      simp [AList.mem_insert]
    · exact (insertClaim_eases _ st').tended h
  exact hcount _

/-- A claim reply. A stale answer closes the claim, of a copy that is another's or terminal. -/
theorem onClaimReply_tended (h : Tended skip n) (dst : Endpoint) {code : Status} (body : Reply)
    (hid : code = kStaleEpoch → id ∈ n.claims → ∀ j, n.find id = some j → j.owner = n.self →
      j.state ≠ .ready ∧ j.state ≠ .leased) :
    Tended skip (n.onClaimReply id dst code body) := by
  unfold Node.onClaimReply
  split
  · exact h
  · rename_i st hst
    have hmem : id ∈ n.claims := AList.lookup_isSome.mp (by simp [hst])
    split
    · exact onClaimGrant_tended h dst st body
    · split
      · rename_i hcode
        refine (resyncJob_eases id).tended ((h.unclaim id).restore (fun _ _ => ?_))
        have hover := hid hcode hmem
        exact ⟨fun j hj ho hs => absurd hs (hover j hj ho).1,
          fun j hj ho hl => absurd hl (hover j hj ho).2⟩
      · split
        · split
          · exact h
          · exact (Eases.foldl (fun m s => sendReplicate_eases _ _) _ _).tended h
        · exact h

theorem openClaim_tended (h : Tended (fun x => skip x ∨ x = id) n) (j : Job) (proposed : Nat) :
    Tended skip (n.openClaim id j proposed) := by
  have hmem :
      id ∈ ({ n with claims := n.claims.insert id (n.newClaim j proposed) } : Node).claims := by
    simp [AList.mem_insert]
  have hopened := (insertClaim_eases id (n.newClaim j proposed)).tended h
  unfold Node.openClaim
  simp only
  split
  · exact finalizeTakeover_tended hopened hmem
  · refine (Eases.foldl (fun m s => claimSend_eases _ _) _ _).tended
      (hopened.restore (fun _ _ => ?_))
    exact ⟨fun _ _ _ _ => Or.inr hmem, fun _ _ _ _ => Or.inr (Or.inl hmem)⟩

theorem startTakeover_tended (h : Tended skip n) (id : JobId) :
    Tended skip (n.startTakeover id) := by
  unfold Node.startTakeover
  split
  · exact h
  · split
    · exact h
    · rename_i j hj
      split
      · exact h
      · have hc := h.commit (.takeover id ((j.epoch + 1) % 2 ^ 32) n.self)
        have hout := commit_outcome n (.takeover id ((j.epoch + 1) % 2 ^ 32) n.self)
        simp only
        generalize n.commit (.takeover id ((j.epoch + 1) % 2 ^ 32) n.self) = c at hc hout ⊢
        cases hout with
        | ok sched open_ => exact openClaim_tended hc j _
        | failed s sched attempt closed =>
          exact fun hopen => absurd (closed.symm.trans hopen) (by simp)

/-- A granted claim goes to the node that asked. -/
theorem grantClaim_tended (h : Tended skip n) (ctx : ReqCtx) {j : Job} (hj : n.find id = some j)
    {proposed : Nat} (hlt : j.epoch < proposed) {newOwner : Endpoint} (hne : newOwner ≠ n.self) :
    Tended skip (n.grantClaim ctx id j proposed newOwner) := by
  have hc := h.commit (.takeover id proposed newOwner)
  unfold Node.grantClaim
  simp only
  split
  · refine (respond_eases _ _ _).tended (afterOwnershipChange_tended hc (fun hopen i hi ho => ?_))
    rw [find_commit hopen, Record.jobId, if_pos rfl, hj] at hi
    obtain rfl : _ = i := Option.some.inj hi
    rw [Record.on, if_pos hlt] at ho
    exact absurd ho hne
  · rename_i hfailed
    refine (respond_eases _ _ _).tended (fun hopen => ?_)
    exact absurd (commit_open hopen).2.1 hfailed

theorem handleClaim_tended (h : Tended skip n) {ctx : ReqCtx} (hsrc : ctx.src ≠ n.self)
    (proposed : Nat)
    (newOwner : Endpoint) : Tended skip (n.handleClaim ctx id proposed newOwner) := by
  unfold Node.handleClaim
  split
  · exact (respond_eases _ _ _).tended h
  · rename_i hfirst
    split
    · exact (respond_eases _ _ _).tended h
    · rename_i j hj
      split_ifs with hpinned hstale hsame
      · exact (respond_eases _ _ _).tended h
      · exact (respond_eases _ _ _).tended h
      · refine grantClaim_tended h ctx hj ?_ (not_not.mp hfirst ▸ hsrc)
        have hge : ¬ proposed < j.epoch := fun hlt => hstale (Or.inl hlt)
        omega
      · exact (respond_eases _ _ _).tended h

end Claims

/-! ### Calls, inputs and packets -/

section React

variable {n : Node} {skip : JobId → Prop}

/-- What a reply may be to the callback it reaches: a stale answer to a claim finds the job
    another's or terminal, and a copy that would be adopted is another owner's. -/
def Node.bearsReply (n : Node) (k : Cont) (st : Status) (body : Reply) : Prop :=
  match k with
  | .claim id _ => st = kStaleEpoch → id ∈ n.claims → ∀ j, n.find id = some j → j.owner = n.self →
      j.state ≠ .ready ∧ j.state ≠ .leased
  | .resync _ => ∀ j, body.asJob = some j → n.outranks j
  | _ => True

theorem runCont_tended (h : Tended skip n) (k : Cont) (st : Status) (body : Reply)
    (hk : n.bearsReply k st body) : Tended skip (n.runCont k st body) := by
  cases k with
  | fwdSubmit key =>
    rw [Node.runCont, Node.onFwdSubmitReply]
    split <;> exact (emit_eases _).tended h
  | replicate id slot => exact (onReplicateReply_eases _ _ _).tended h
  | apply id slot member r q => exact onApplyReply_tended h _ _ _ _ _
  | fwdAck => exact (emit_eases _).tended h
  | claim id dst => exact onClaimReply_tended h dst body hk
  | resync id => exact onResyncReply_tended h st hk
  | drainHandoff => exact h
  | fwdStatus id rest best => exact (queryStatusTarget_eases _ _ _ _).tended h

theorem finishCall_tended (h : Tended skip n) (st : Status) (body : Reply) (reqId : Nat)
    (hk : ∀ c, n.calls.lookup reqId = some c → n.bearsReply c.cont st body) :
    Tended skip (n.finishCall st body reqId) := by
  unfold Node.finishCall
  split
  · exact h
  · rename_i c hc
    have hup : Eases n { n with calls := n.calls.erase reqId } := .of_eq rfl rfl rfl rfl rfl rfl
    exact runCont_tended (hup.tended h) c.cont st body (hk c hc)

/-- A failed call bears nothing. -/
theorem bears_of_empty (k : Cont) {st : Status} (hst : st ≠ kStaleEpoch) :
    n.bearsReply k st .empty := by
  cases k with
  | claim id dst => exact fun h => absurd h hst
  | resync id => exact fun j hj => (nomatch hj)
  | _ => trivial

theorem finishCalls_tended {st : Status} (hst : st ≠ kStaleEpoch) (ids : List Nat)
    (h : Tended skip n) : Tended skip (ids.foldl (Node.finishCall · st .empty) n) := by
  induction ids generalizing n with
  | nil => exact h
  | cons r ids ih => exact ih (finishCall_tended h st .empty r (fun c _ => bears_of_empty _ hst))

theorem failCallsTo_tended (h : Tended skip n) (p : Endpoint) : Tended skip (n.failCallsTo p) :=
  finishCalls_tended (by decide) _ ((walkCalls_eases _).tended h)

theorem tick_tended (h : Tended skip n) : Tended skip n.tick := by
  have hrpc : Tended skip n.rpcTick :=
    finishCalls_tended (by decide) _ ((walkCalls_eases _).tended h)
  exact drainTick_eases.tended
    (claimTick_eases.tended (repairTick_eases.tended (expiryTick_tended hrpc)))

theorem onPeerDead_tended (h : Tended skip n) (p : Endpoint) : Tended skip (n.onPeerDead p) := by
  have hfold : ∀ (ids : List JobId) (m : Node), Tended skip m →
      Tended skip (ids.foldl Node.startTakeover m) := by
    intro ids
    induction ids with
    | nil => exact fun _ hm => hm
    | cons id ids ih => exact fun m hm => ih _ (startTakeover_tended hm id)
  exact hfold _ _ ((walkJobs_eases _).tended (failCallsTo_tended h p))

/-- A minted job is queued. -/
theorem ownerSubmit_tended (h : Tended skip n) (p : SubmitParams) (cb : SubmitCb) :
    Tended skip (n.ownerSubmit p cb) := by
  unfold Node.ownerSubmit
  split
  · exact (submitCb_eases _ _ _).tended h
  · split
    · exact (submitCb_eases _ _ _).tended h
    · have hup : Eases n { n with nextJobSeq := n.nextJobSeq + 1 } := .of_eq rfl rfl rfl rfl rfl rfl
      have hc := (hup.tended h).commit (.submit (n.mintJob p))
      simp only
      split
      · refine (startReplication_eases _ _).tended
          (((pushReady_eases _).tended hc).restore (fun hopen _ => ?_))
        refine ⟨fun _ _ _ _ => Or.inl (by simp [Record.jobId]), fun j hj _ hl => ?_⟩
        have hfind := (find_commit hopen (n.mintJob p).id).symm.trans hj
        rw [Record.jobId, if_pos rfl] at hfind
        have hmint : n.mintJob p = j := by
          cases hold : Node.find _ (n.mintJob p).id <;> rw [hold] at hfind <;>
            exact Option.some.inj hfind
        rw [← hmint] at hl
        cases hl
      · rename_i hfailed
        refine (submitCb_eases _ _ _).tended (fun hopen => ?_)
        exact absurd (commit_open hopen).2.1 hfailed

theorem submit_tended (h : Tended skip n) (p : SubmitParams) : Tended skip (n.submit p) := by
  unfold Node.submit
  simp only
  split_ifs
  · exact (emit_eases _).tended h
  · exact ownerSubmit_tended h p _
  · exact (emit_eases _).tended h
  · refine (call_eases _ _ _ (fun m => ?_)).tended h
    rw [Node.onFwdSubmitReply]
    split <;> exact emit_eases _

theorem ack_tended (h : Tended skip n) (id : JobId) (epoch leaseSeq : Nat) (success : Bool) :
    Tended skip (n.ack id epoch leaseSeq success) := by
  unfold Node.ack
  split
  · exact (emit_eases _).tended h
  · split
    · exact ownerAck_tended h _ _ _ _
    · exact (call_eases _ _ _ (fun m => emit_eases _)).tended h

theorem compact_tended (h : Tended skip n) : Tended skip n.compact := by
  intro hopen x hx
  have hwas : n.store.failed = false := by
    by_contra hne
    have hstop := Store.compact_failed n.store (n.sched.disk.headD .durable)
      (Bool.eq_true_of_not_eq_false hne)
    exact absurd (hstop.symm.trans hopen) (by simp)
  have hfind : ∀ id, n.compact.find id = n.find id := by
    intro id
    rw [Node.find, Node.compact, (Store.compact_eq _ _).1, Node.find]
  have hn := h hwas x hx
  exact ⟨fun j hj => hn.1 j ((hfind x).symm.trans hj), fun j hj => hn.2 j ((hfind x).symm.trans hj)⟩

/-- Setting up a replayed job tracks it. -/
theorem openJob_tended {id : JobId} (h : Tended (fun x => skip x ∨ x = id) n) :
    Tended skip (n.openJob id) := by
  unfold Node.openJob
  split
  · rename_i hnone
    exact h.restore (fun _ _ => tracks_of_none hnone)
  · rename_i j hj
    have huniq : ∀ i, n.find id = some i → i = j := fun i hi => Option.some.inj (hi.symm.trans hj)
    split
    · rename_i howner
      exact h.restore (fun _ _ => tracks_of_owner (fun i hi => huniq i hi ▸ howner))
    · have hrep : Tended (fun x => skip x ∨ x = id) { n with repair := n.repair.insert id 0 } := h
      simp only
      split
      · rename_i hs
        refine (resyncJob_eases _).tended (((pushReady_eases _).tended hrep).restore
          (fun _ _ => ⟨fun _ _ _ _ => Or.inl (by simp), fun i hi _ hl => ?_⟩))
        rw [huniq i hi, hs] at hl
        cases hl
      · rename_i hs
        refine (resyncJob_eases _).tended (((insertDeadline_eases _ _).tended hrep).restore
          (fun _ _ => ⟨fun i hi _ hr => ?_, fun _ _ _ _ => Or.inl (by simp [AList.mem_insert])⟩))
        rw [huniq i hi, hs] at hr
        cases hr
      · rename_i hready hleased
        refine hrep.restore (fun _ _ => tracks_of_terminal (fun i hi => ?_))
        rw [huniq i hi]
        exact ⟨hready, hleased⟩

/-- A node that has just started tracks everything. -/
theorem restart_tended (n : Node) (boot : Nat) : Tended (fun _ => False) (n.restart boot) := by
  have hfold : ∀ (ids : List JobId) (m : Node), Tended (fun x => x ∈ ids) m →
      Tended (fun _ => False) (ids.foldl Node.openJob m) := by
    intro ids
    induction ids with
    | nil => exact fun m hm => hm.mono (fun x hx => (nomatch hx))
    | cons id ids ih =>
      refine fun m hm => ih _ (openJob_tended (hm.mono (fun x hx => ?_)))
      exact (List.mem_cons.mp hx).symm
  refine hfold _ _ (fun _ x hx => tracks_of_none ?_)
  have hkeys : x ∉ (n.reboot boot).store.table.jobs := fun hm => hx (mem_arrange.mpr hm)
  exact AList.lookup_eq_none.mpr hkeys

/-- What a trigger may be to a node that keeps track: a claim or a transition comes from
    another node, a copy does not make this one the owner, and a reply is borne. -/
def Node.bears (n : Node) : Trigger → Prop
  | .packet (.request src _ _ _ body) =>
    match body with
    | .replicate j => n.outranks j
    | .apply r => src ≠ n.self ∧ r.isTakeover = false
    | .claim _ _ _ => src ≠ n.self
    | _ => True
  | .packet (.response _ _ _ reqId _ st body) =>
    ∀ c, n.calls.lookup reqId = some c → n.bearsReply c.cont st body
  | .input _ => True

theorem serve_tended (h : Tended skip n) {src dst : Endpoint} {boot reqId : Nat} {body : Request}
    (ht : n.bears (.packet (.request src dst boot reqId body))) :
    Tended skip (n.serve { src, boot, reqId, asked := body }) := by
  cases body with
  | fwdSubmit p =>
    simp only [Node.serve, Node.handleFwdSubmit]
    split
    · exact (respond_eases _ _ _).tended h
    · exact ownerSubmit_tended h p _
  | replicate j => exact handleReplicate_tended h _ ht
  | claim id proposed newOwner =>
    have hsrc : src ≠ n.self := ht
    exact handleClaim_tended h hsrc proposed newOwner
  | resync id =>
    simp only [Node.serve, Node.handleResync]
    split <;> exact (respond_eases _ _ _).tended h
  | fwdAck id epoch leaseSeq success =>
    simp only [Node.serve, Node.handleFwdAck]
    split
    · exact (respond_eases _ _ _).tended h
    · split
      · exact (respond_eases _ _ _).tended h
      · exact ownerAck_tended h _ _ _ _
  | fwdStatus id =>
    simp only [Node.serve, Node.handleFwdStatus]
    split <;> exact (respond_eases _ _ _).tended h
  | apply r => exact handleApply_tended h ht.1 ht.2
  | drainHandoff id =>
    simp only [Node.serve, Node.handleDrainHandoff]
    split
    · exact (respond_eases _ _ _).tended h
    · refine (respond_eases _ _ _).tended ?_
      split
      · exact startTakeover_tended h id
      · exact h

theorem perform_tended (h : Tended (fun _ => False) n) (i : Input) :
    Tended (fun _ => False) (n.perform i) := by
  cases i with
  | submit p => exact submit_tended h p
  | lease worker => exact lease_tended h worker
  | ack id epoch leaseSeq success => exact ack_tended h _ _ _ _
  | status id => exact (queryStatusTarget_eases _ _ _ _).tended h
  | tick => exact tick_tended h
  | advance d => exact h
  | view peers => exact h
  | peerDead p => exact onPeerDead_tended h p
  | peerAlive p => exact (onPeerAlive_eases p).tended h
  | hello p => exact failCallsTo_tended h p
  | drain => exact h
  | compact => exact compact_tended h
  | restart boot => exact restart_tended n boot

/-- A node that keeps track of all its jobs does so after anything it bears. -/
theorem react_tended (h : Tended (fun _ => False) n) {t : Trigger} (ht : n.bears t) :
    Tended (fun _ => False) (n.react t) := by
  cases t with
  | input i => exact perform_tended h i
  | packet p =>
    cases p with
    | request src dst boot reqId body => exact serve_tended h ht
    | response src dst boot reqId asked st body => exact finishCall_tended h st body reqId ht

end React

end Tautq
