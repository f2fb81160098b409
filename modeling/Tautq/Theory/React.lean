import Mathlib.Data.List.Dedup
import Tautq.Lib.Assoc
import Tautq.Theory.Handlers

/-!
# Every Reaction Is a Path of Moves

The last part of the decomposition: acks and timers, claims, drains, finished
calls, and a restart. It ends with `react_path`, the only result the
invariants need.

A restart sets up each replayed job and reconciles it in one loop body. The
two halves touch different fields, so the set-up of all jobs can be done
first; `openJobs_eq` is that rearrangement, and it is what lets a new
incarnation be one move.

## Theorems

* `expiryTick_path`, `ownerAck_path`, `repairTick_path`: Timers and acks.
* `finalizeTakeover_path`: A claim with its majority.
* `finishCall_fail`, `finishCall_reply`: The end of a call.
* `restart_path`: A new incarnation.
* `react_path`: Handling any trigger.
-/

namespace Tautq

open Status Node

/-! ### Expiry -/

section Walks

variable {α : Type} [DecidableEq α]

/-- A walk of a map visits its keys. -/
theorem mem_arrange {order keys : List α} {a : α} : a ∈ arrange order keys ↔ a ∈ keys := by
  simp only [arrange, List.mem_append, List.mem_filter, List.mem_dedup, decide_eq_true_eq]
  constructor
  · rintro (h | h)
    · exact h.2
    · exact h.1
  · intro h
    by_cases ho : a ∈ order
    · exact Or.inl ⟨ho, h⟩
    · exact Or.inr ⟨h, ho⟩

/-- A walk of a map visits no key twice. -/
theorem nodup_arrange {order keys : List α} (h : keys.Nodup) : (arrange order keys).Nodup := by
  refine List.Nodup.append ((List.nodup_dedup order).filter _) (h.filter _) ?_
  intro a ha hb
  have ho : a ∈ order := List.mem_dedup.mp (List.mem_filter.mp ha).1
  have hn := (List.mem_filter.mp hb).2
  simp [ho] at hn

end Walks

section Timers

variable {t : Trigger} {m₀ m : Node}

/-- A due lease is expired or parked; its timer goes and no other changes. -/
theorem expireJob_spec (id : JobId) (deadline : Time) (hm : Sound m)
    (armed : m.leaseDeadline.lookup id = some deadline) (due : deadline ≤ m.now) :
    Path (Move t m₀) m (m.expireJob id) ∧ (m.expireJob id).now = m.now ∧
      (m.expireJob id).leaseDeadline = m.leaseDeadline.erase id := by
  unfold Node.expireJob
  have hfind : ({ m with leaseDeadline := m.leaseDeadline.erase id } : Node).find id = m.find id :=
    rfl
  simp only [hfind]
  have hdisarm := @Move.disarm t m₀ m id
  cases hj : m.find id with
  | none => exact ⟨.single hdisarm, rfl, rfl⟩
  | some j =>
    simp only
    by_cases hskip : j.state ≠ .leased ∨ j.owner ≠ m.self
    · rw [if_pos hskip]
      exact ⟨.single hdisarm, rfl, rfl⟩
    · rw [if_neg hskip]
      rw [not_or, not_not, not_not] at hskip
      rcases hskip with ⟨hleased, howned⟩
      by_cases hused : j.maxAttempts ≤ j.leaseSeq
      · rw [if_pos hused]
        have hpark := @quorumCommit_spec t m₀ { m with leaseDeadline := m.leaseDeadline.erase id }
          id j (.deadLetter id j.epoch) .ignore hm hj howned (.parked hleased hused)
        exact ⟨.head hdisarm hpark.1, hpark.2 rfl⟩
      · rw [if_neg hused]
        have hexp := @quorumCommit_spec t m₀ { m with
            leaseDeadline := m.leaseDeadline.erase id
            events := .expired id j.leaseSeq m.now :: m.events }
          id j (.expire id j.epoch j.leaseSeq) .ignore hm hj howned
          (.expired hleased (by simp [AList.mem_erase]) rfl)
        refine ⟨.head (.expire m id j deadline armed due hj hleased howned)
          (hexp.1.trans (quiet_path ?_)), hexp.2 rfl⟩
        constructor <;> rfl

/-- Due leases expired one after the other. No id is listed twice, so each still
    has its timer when its turn comes. -/
theorem expireJobs_path (ids : List JobId) (hm : Sound m) (hnodup : ids.Nodup)
    (hdue : ∀ id ∈ ids, ∃ d, m.leaseDeadline.lookup id = some d ∧ d ≤ m.now) :
    Path (Move t m₀) m (ids.foldl expireJob m) := by
  induction ids generalizing m with
  | nil => exact .refl
  | cons id ids ih =>
    rcases hdue id (by simp) with ⟨d, hd, hle⟩
    have hspec := @expireJob_spec t m₀ m id d hm hd hle
    rcases List.nodup_cons.mp hnodup with ⟨hnot, hrest⟩
    refine hspec.1.trans (ih (sound_of_path hspec.1 hm) hrest (fun id' hid' => ?_))
    rcases hdue id' (List.mem_cons_of_mem _ hid') with ⟨d', hd', hle'⟩
    refine ⟨d', ?_, hspec.2.1.symm ▸ hle'⟩
    rw [hspec.2.2, AList.lookup_erase_ne (fun h : id' = id => hnot (h ▸ hid'))]
    exact hd'

theorem expiryTick_path (hm : Sound m) : Path (Move t m₀) m m.expiryTick := by
  unfold Node.expiryTick
  refine (quiet_path ?_).trans (expireJobs_path _ ?_ ?_ ?_)
  · constructor <;> rfl
  · exact hm
  · exact (nodup_arrange (AList.keys_nodup _)).filter _
  · intro id hid
    have hdue := (List.mem_filter.mp hid).2
    change ∃ d, m.leaseDeadline.lookup id = some d ∧ d ≤ m.now
    cases hlook : m.leaseDeadline.lookup id with
    | none => simp [hlook] at hdue
    | some d => exact ⟨d, rfl, by simpa [hlook] using hdue⟩

theorem repairJob_path (id : JobId) : Path (Move t m₀) m (m.repairJob id) := by
  unfold Node.repairJob
  cases m.repair.lookup id with
  | none => exact .refl
  | some mask =>
    simp only
    cases hfind : m.find id with
    | none => exact .refl
    | some j =>
      simp only
      split
      · exact .refl
      · rename_i howned
        exact (sendReplicates_spec id j _ hfind (Or.inl (not_not.mp howned))
          (fun s hs => (List.mem_filter.mp hs).1)).1

/-- A loop whose every pass is a path. -/
theorem loop_path {α : Type} (f : Node → α → Node) (xs : List α)
    (hf : ∀ m x, Sound m → Path (Move t m₀) m (f m x)) (hm : Sound m) :
    Path (Move t m₀) m (xs.foldl f m) :=
  (Path.foldl (P := Sound) f xs
    (fun m' x _ hm' => ⟨hf m' x hm', sound_of_path (hf m' x hm') hm'⟩) m hm).1

theorem repairTick_path (hm : Sound m) : Path (Move t m₀) m m.repairTick := by
  unfold Node.repairTick
  split
  · exact .refl
  · refine (quiet_path ?_).trans (loop_path _ _ (fun m' id _ => repairJob_path id) ?_)
    · constructor <;> rfl
    · exact hm

end Timers

/-! ### Acks -/

section Acks

variable {t : Trigger} {m₀ m : Node}

theorem nackJob_path (id : JobId) (j : Job) (epoch leaseSeq : Nat) (cb : AckCb) (hm : Sound m)
    (hq : Quiet m₀ m) (hacks : Acks t id epoch leaseSeq false cb) (hfind : m.find id = some j)
    (howned : j.owner = m.self) (hcur : currentLease j epoch leaseSeq = true) :
    Path (Move t m₀) m (m.nackJob id j epoch leaseSeq cb) := by
  have hcur' : j.state = .leased ∧ epoch ≤ j.epoch ∧ j.leaseSeq = leaseSeq := by
    simpa [currentLease, and_assoc] using hcur
  rcases hcur' with ⟨hleased, hepoch, hseq⟩
  unfold Node.nackJob
  refine .head (.nack m id j epoch leaseSeq cb hacks hfind howned hcur hq.store) ?_
  have hexp := @quorumCommit_spec t m₀ { m with
      leaseDeadline := m.leaseDeadline.erase id
      events := .nacked id epoch leaseSeq m.now :: m.events }
    id j (.expire id j.epoch j.leaseSeq) .ignore hm hfind howned
    (.nacked epoch hleased hepoch (by simp [AList.mem_erase]) (by rw [hseq]; rfl))
  refine (hexp.1.trans (quiet_path ?_)).tail
    (.ackPlain _ id false cb kCreated (Or.inl ⟨epoch, leaseSeq, false, hacks⟩) (Or.inl rfl))
  constructor <;> rfl

theorem completeJob_path (id : JobId) (j : Job) (epoch leaseSeq : Nat) (cb : AckCb) (hm : Sound m)
    (hq : Quiet m₀ m) (hacks : Acks t id epoch leaseSeq true cb) (hfind : m.find id = some j)
    (howned : j.owner = m.self) (hopen : j.state ≠ .done)
    (hacc : (currentLease j epoch leaseSeq || amnesty j epoch leaseSeq || lateAfterPark j epoch) =
      true) :
    Path (Move t m₀) m (m.completeJob id j epoch leaseSeq cb) := by
  unfold Node.completeJob
  refine .head (.complete m id j epoch leaseSeq cb hacks hfind howned hopen hacc hq.store) ?_
  refine (quiet_path ?_).trans (quorumCommit_spec id j _ _ ?_ ?_ ?_ ?_).1
  · constructor <;> rfl
  · exact hm
  · exact hfind
  · exact howned
  · exact .done epoch leaseSeq cb hacks hopen hacc hq.store

/-- The owner's side of an ack. -/
theorem ownerAck_path (id : JobId) (epoch leaseSeq : Nat) (success : Bool) (cb : AckCb)
    (hm : Sound m) (hq : Quiet m₀ m) (hacks : Acks t id epoch leaseSeq success cb)
    (howned : ∀ j, m.find id = some j → j.owner = m.self) :
    Path (Move t m₀) m (m.ownerAck id epoch leaseSeq success cb) := by
  have hsrc : AckSource t m id cb := Or.inl ⟨epoch, leaseSeq, success, hacks⟩
  unfold Node.ownerAck
  cases hfind : m.find id with
  | none => exact .single (.ackPlain m id success cb _ hsrc (Or.inr (by decide)))
  | some j =>
    have hj := howned j hfind
    simp only
    by_cases hdone : j.state = .done
    · rw [if_pos hdone]
      by_cases hrep : id ∈ m.repair
      · rw [if_pos hrep]
        exact .single (.ackPlain m id success cb _ hsrc (Or.inr (by decide)))
      · rw [if_neg hrep]
        exact .single (.ackDone m id j epoch leaseSeq success cb hacks hfind hj hdone hrep)
    · rw [if_neg hdone]
      cases success with
      | false =>
        simp only [if_true]
        split
        · exact .single (.ackPlain m id false cb _ hsrc (Or.inl rfl))
        · rename_i hcur
          exact nackJob_path id j epoch leaseSeq cb hm hq hacks hfind hj (by simpa using hcur)
      | true =>
        simp only [Bool.true_eq_false, if_false]
        split
        · rename_i hacc
          exact completeJob_path id j epoch leaseSeq cb hm hq hacks hfind hj hdone hacc
        · exact .single (.ackPlain m id true cb _ hsrc (Or.inr (by decide)))

theorem ack_path (id : JobId) (epoch leaseSeq : Nat) (success : Bool) (hm : Sound m)
    (hq : Quiet m₀ m) (ht : t = .input (.ack id epoch leaseSeq success)) :
    Path (Move t m₀) m (m.ack id epoch leaseSeq success) := by
  unfold Node.ack
  cases hfind : m.find id with
  | none => exact .single (.note m _ trivial)
  | some j =>
    simp only
    split
    · rename_i howned
      refine ownerAck_path id epoch leaseSeq success .client hm hq (.client ht) (fun j' hj' => ?_)
      rw [← Option.some.inj (hfind.symm.trans hj')]
      exact howned
    · rename_i hother
      exact call_path _ _ _ _ (.fwdAck id epoch leaseSeq success j ht hfind hother)
        (fun m' _ => .single (.note m' _ trivial))

theorem handleFwdAck_path (ctx : ReqCtx) (id : JobId) (epoch leaseSeq : Nat) (success : Bool)
    (hm : Sound m) (hq : Quiet m₀ m) (ht : t.ctx = some ctx)
    (ha : ctx.asked = .fwdAck id epoch leaseSeq success) :
    Path (Move t m₀) m (m.handleFwdAck ctx id epoch leaseSeq success) := by
  unfold Node.handleFwdAck
  cases hfind : m.find id with
  | none => exact .single (.plain m ctx _ ht (Or.inl (by decide)))
  | some j =>
    simp only
    split
    · exact .single (.plain m ctx _ ht (Or.inl (by decide)))
    · rename_i howned
      refine ownerAck_path id epoch leaseSeq success (.reply ctx) hm hq (.forwarded ctx ht ha)
        (fun j' hj' => ?_)
      rw [← Option.some.inj (hfind.symm.trans hj')]
      exact not_not.mp howned

end Acks

/-! ### Claims -/

section Claims

variable {t : Trigger} {m₀ m : Node}

theorem rearm_eq (m : Node) (id : JobId) (arm : Bool) (d : Time) :
    ∃ deadlines, (if arm then { m with leaseDeadline := m.leaseDeadline.insert id d } else m) =
        { m with leaseDeadline := deadlines } ∧
      (deadlines = m.leaseDeadline ∨ deadlines = m.leaseDeadline.insert id d) := by
  cases arm with
  | false => exact ⟨m.leaseDeadline, rfl, Or.inl rfl⟩
  | true => exact ⟨m.leaseDeadline.insert id d, rfl, Or.inr rfl⟩

/-- Committing the merged knowledge changes the store as one append may, and arms
    at most the job's own timer. -/
theorem inherit_eq (id : JobId) (st : ClaimState) (l : Job) :
    ∃ s sched deadlines,
    m.inherit id st l = { m with store := s, sched, leaseDeadline := deadlines } ∧
      (inherits id st l = none → s = m.store) ∧
      (∀ r, inherits id st l = some r → Attempt m.store r s) ∧
      (deadlines = m.leaseDeadline ∨
        deadlines = m.leaseDeadline.insert id (m.now + l.visibilityMs)) := by
  unfold Node.inherit
  cases hinh : inherits id st l with
  | none =>
    rcases rearm_eq m id (rearms st l) (m.now + l.visibilityMs) with ⟨d, heq, hd⟩
    exact ⟨m.store, m.sched, d, heq, fun _ => rfl, by simp, hd⟩
  | some r =>
    simp only
    have hout := commit_outcome m r
    generalize m.commit r = c at hout ⊢
    cases hout with
    | ok sched open_ =>
      rcases rearm_eq { m with store := m.store.append r, sched } id (rearms st l)
        (m.now + l.visibilityMs) with ⟨d, heq, hd⟩
      refine ⟨m.store.append r, sched, d, heq, by simp, fun r' h => ?_, hd⟩
      rw [← Option.some.inj h]
      exact .durable open_
    | failed s sched attempt _ =>
      rcases rearm_eq { m with store := s, sched } id (rearms st l) (m.now + l.visibilityMs) with
        ⟨d, heq, hd⟩
      refine ⟨s, sched, d, heq, by simp, fun r' h => ?_, hd⟩
      rw [← Option.some.inj h]
      exact attempt

theorem activate_eq (id : JobId) (j : Job) (hfind : m.find id = some j) :
    ∃ ready deadlines, m.activate id = { m with
        ready
        leaseDeadline := deadlines
        repair := m.repair.insert id 0
        events := .finalized j :: m.events } ∧
      (deadlines = m.leaseDeadline ∨
        deadlines = m.leaseDeadline.insert id (m.now + j.visibilityMs)) := by
  unfold Node.activate
  simp only [hfind]
  by_cases hready : j.state = .ready
  · rw [if_pos hready]
    exact ⟨_, _, rfl, Or.inl rfl⟩
  · rw [if_neg hready]
    by_cases harm : j.state = .leased ∧ id ∉ m.leaseDeadline
    · rw [if_pos harm]
      exact ⟨_, _, rfl, Or.inr rfl⟩
    · rw [if_neg harm]
      exact ⟨_, _, rfl, Or.inl rfl⟩

theorem inherits_spec {id : JobId} {st : ClaimState} {l : Job} {r : Record}
    (h : inherits id st l = some r) : r.jobId = id ∧ r.full = none := by
  unfold Node.inherits at h
  split at h
  · exact Option.some.inj h ▸ ⟨rfl, rfl⟩
  · split at h
    · exact Option.some.inj h ▸ ⟨rfl, rfl⟩
    · split at h
      · exact Option.some.inj h ▸ ⟨rfl, rfl⟩
      · cases h

/-- What a takeover finds after the merge is still a copy of the job. -/
theorem find_of_attempt {s s' : Store} {r : Record} {id : JobId} {l : Job} (h : Attempt s r s')
    (hr : r.jobId = id) (hfull : r.full = none) (hl : s.table.find id = some l) :
    ∃ j, s'.table.find id = some j ∧ SameJob j l := by
  cases h with
  | durable => exact ⟨r.on l, find_append_of_found s hr hl, r.on_same l hfull⟩
  | lost | kept | refused => exact ⟨l, hl, .refl l⟩

theorem lookup_armed {deadlines base : AList (fun _ : JobId => Time)} {id id' : JobId} {d x : Time}
    (h : deadlines = base ∨ deadlines = base.insert id x) (hd : deadlines.lookup id' = some d) :
    base.lookup id' = some d ∨ (id' = id ∧ d = x) := by
  rcases h with rfl | rfl
  · exact Or.inl hd
  · rcases lookup_insert_cases hd with hnew | ⟨_, hold⟩
    · exact Or.inr hnew
    · exact Or.inl hold

/-- A claim with its majority. -/
theorem finalizeTakeover_path (id : JobId) (st : ClaimState)
    (standing : m.claims.lookup id = some st)
    (ripe : Ripe t m₀ m id st) : Path (Move t m₀) m (m.finalizeTakeover id) := by
  unfold Node.finalizeTakeover
  rw [standing]
  have hfind : ({ m with claims := m.claims.erase id } : Node).find id = m.find id := rfl
  simp only [hfind]
  have hwhy : t.seizes id = false ∨ st.needed ≤ 0 := by
    cases ripe with
    | granted _ _ _ _ answers => exact Or.inl (answers.seizes id)
    | alone _ _ _ _ _ none_ => exact Or.inr none_
  cases hl : m.find id with
  | none => exact .single (.dropClaim m id st standing hwhy)
  | some l =>
    simp only
    by_cases hother : l.owner ≠ m.self
    · rw [if_pos hother]
      exact .single (.dropClaim m id st standing hwhy)
    · rw [if_neg hother]
      have howned := not_not.mp hother
      rcases @inherit_eq { m with claims := m.claims.erase id } id st l with
        ⟨s, sched, d₁, heq, hnone, hsome, hd₁⟩
      rw [heq]
      have hafter : ∃ j, s.table.find id = some j ∧ SameJob j l := by
        cases hinh : inherits id st l with
        | none => exact ⟨l, by rw [hnone hinh]; exact hl, .refl l⟩
        | some r =>
          rcases inherits_spec hinh with ⟨hid, hfull⟩
          exact find_of_attempt (hsome r hinh) hid hfull hl
      rcases hafter with ⟨j, hj, hsame⟩
      rcases @activate_eq { m with
          claims := m.claims.erase id
          store := s
          sched
          leaseDeadline := d₁ } id j hj with ⟨ready, d₂, heq₂, hd₂⟩
      rw [heq₂]
      refine .head (.finalize m id st l j s d₂ standing ripe hl howned hnone hsome hj
        (fun id' d hd => ?_)) (quiet_path ?_)
      · rcases lookup_armed hd₂ hd with hold | ⟨hid, hnew⟩
        · exact lookup_armed hd₁ hold
        · exact Or.inr ⟨hid, by rw [hnew, hsame.visibilityMs]⟩
      · constructor <;> rfl

/-- A grant is merged, and may complete the majority. -/
theorem onClaimGrant_path (id : JobId) (dst : Endpoint) (st : ClaimState) (body : Reply)
    (hans : Answers t m₀ (.claim id dst) kCreated body) (standing : m.claims.lookup id = some st)
    (hclaims : m.claims = m₀.claims) (hfirst : m.store = m₀.store) :
    Path (Move t m₀) m (m.onClaimGrant id dst st body) := by
  -- Whichever slot the grant is counted for.
  have hany : ∀ bit, Path (Move t m₀) m
      (if ((st.count bit).merge body.asClaimInfo).needed ≤
          ((st.count bit).merge body.asClaimInfo).acks then
        ({ m with
          claims := m.claims.insert id ((st.count bit).merge body.asClaimInfo) } :
          Node).finalizeTakeover id
      else { m with claims := m.claims.insert id ((st.count bit).merge body.asClaimInfo) }) := by
    intro bit
    refine .head (.merge m id dst body st bit hans standing hclaims hfirst) ?_
    split
    · rename_i henough
      exact finalizeTakeover_path id _ (AList.lookup_insert _)
        (.granted dst body st bit hans (hclaims ▸ standing) rfl henough hfirst)
    · exact .refl
  exact hany _

theorem onClaimReply_path (id : JobId) (dst : Endpoint) (code : Status) (body : Reply)
    (h : code = kCreated → Answers t m₀ (.claim id dst) code body ∧ m.claims = m₀.claims ∧
      m.store = m₀.store) (hstale : code = kStaleEpoch → t.seizes id = false) :
    Path (Move t m₀) m (m.onClaimReply id dst code body) := by
  unfold Node.onClaimReply
  cases hst : m.claims.lookup id with
  | none => exact .refl
  | some st =>
    simp only
    by_cases hok : code = kCreated
    · rw [if_pos hok]
      rcases h hok with ⟨hans, hclaims, hfirst⟩
      exact onClaimGrant_path id dst st body (hok ▸ hans) hst hclaims hfirst
    · rw [if_neg hok]
      by_cases hcode : code = kStaleEpoch
      · rw [if_pos hcode]
        exact .head (.dropClaim m id st hst (Or.inl (hstale hcode))) (resyncJob_spec id).1
      · rw [if_neg hcode]
        by_cases hunknown : code = kUnknownJob
        · rw [if_pos hunknown]
          cases hfind : m.find id with
          | none => exact .refl
          | some j =>
            have hmem : id ∈ m.claims := AList.lookup_isSome.mp (by rw [hst]; rfl)
            exact (sendReplicates_spec id j _ hfind (Or.inr hmem)
              (fun s hs => (List.mem_filter.mp hs).1)).1
        · rw [if_neg hunknown]

theorem onClaimReply_busy (id : JobId) (dst : Endpoint) :
    m.onClaimReply id dst kBusy .empty = m := by
  unfold Node.onClaimReply
  cases m.claims.lookup id with
  | none => rfl
  | some st =>
    simp only [show ¬ kBusy = kCreated by decide, show ¬ kBusy = kStaleEpoch by decide,
      show ¬ kBusy = kUnknownJob by decide, if_false]

/-- Asking some of the peers to grant the standing claim. -/
theorem claimSends_path (id : JobId) (j : Job) (xs : List (Nat × Endpoint))
    (hfind : m.find id = some j) (hxs : ∀ s ∈ xs, s ∈ j.peers m.self) :
    Path (Move t m₀) m (xs.foldl (fun n s => n.claimSend id s.2) m) := by
  refine (Path.foldl (P := fun m' => Anchored m m') _ xs (fun m' s hs hm' => ?_) m (.refl m)).1
  unfold Node.claimSend
  cases hst : m'.claims.lookup id with
  | none => exact ⟨.refl, hm'⟩
  | some st =>
    simp only [onClaimReply_busy]
    refine ⟨call_path _ _ _ _ ?_ (fun _ _ => .refl), hm'.trans (call_anchored _ _ _ _
      (fun _ _ => .refl _))⟩
    refine .claim id s.2 s.1 j st hst ((hm'.find id).trans hfind) ?_
    rw [hm'.self]
    exact hxs s hs

/-- A takeover changes neither the state nor the lease of a copy. -/
theorem takeover_on_state (id : JobId) (epoch : Nat) (o : Endpoint) (l : Job) :
    ((Record.takeover id epoch o).on l).state = l.state ∧
      ((Record.takeover id epoch o).on l).leaseSeq = l.leaseSeq := by
  simp only [Record.on]
  split <;> exact ⟨rfl, rfl⟩

theorem startTakeover_path (id : JobId) (ht : t.seizes id = true) :
    Path (Move t m₀) m (m.startTakeover id) := by
  unfold Node.startTakeover
  split
  · exact .refl
  · rename_i hskip
    cases hl : m.find id with
    | none => exact .refl
    | some l =>
      simp only
      split
      · exact .refl
      · rename_i hmine
        rw [not_or] at hskip hmine
        have hactive : l.terminal = false := by simpa using hmine.2
        have hadm : m.draining = false := Bool.eq_false_iff.mpr hskip.1
        generalize hprop : (l.epoch + 1) % 2 ^ 32 = proposed
        have hw : Writes t m₀ m (.takeover id proposed m.self) :=
          hprop ▸ .seize id l hl hmine.1 hactive hskip.2 ht hadm
        have hout := commit_outcome m (.takeover id proposed m.self)
        generalize m.commit (.takeover id proposed m.self) = c at hout ⊢
        cases hout with
        | failed s sched attempt closed =>
          simp only [Bool.false_eq_true, if_false]
          exact spoil_path s sched hw (by simp) (by simp [Starts]) attempt closed
        | ok sched open_ =>
          have hseize := @Move.seize t m₀ m id l hl hmine.1 hactive hskip.2 open_ ht hadm
          rw [hprop] at hseize
          simp only [if_true]
          refine .head hseize ?_
          have hq : Quiet { m with
              store := m.store.append (.takeover id proposed m.self)
              claims := m.claims.insert id (m.newClaim l proposed) } { m with
              store := m.store.append (.takeover id proposed m.self)
              claims := m.claims.insert id (m.newClaim l proposed)
              sched } := by
            constructor <;> rfl
          refine (quiet_path hq).trans ?_
          have hafter : (m.store.append (.takeover id proposed m.self)).table.find id =
              some ((Record.takeover id proposed m.self).on l) :=
            find_append_of_found m.store rfl hl
          unfold Node.openClaim
          simp only
          split
          · rename_i hsolo
            have hsame := takeover_on_state id proposed m.self l
            exact finalizeTakeover_path id (m.newClaim l proposed) (AList.lookup_insert _)
              (.alone _ hafter hsame.1.symm hsame.2.symm
                (by rw [Job.terminal, hsame.1]; exact hactive) hsolo)
          · refine claimSends_path id _ _ hafter (fun s hs => ?_)
            rw [((Record.takeover id proposed m.self).on_same l rfl).peers]
            exact (List.mem_filter.mp hs).1

/-- Standing down and answering touch different fields. -/
theorem afterOwnershipChange_respond (id : JobId) (ctx : ReqCtx) (st : Status) (body : Reply) :
    (m.afterOwnershipChange id).respond ctx st body =
      (m.respond ctx st body).afterOwnershipChange id := by
  unfold Node.afterOwnershipChange
  have hfind : (m.respond ctx st body).find id = m.find id := rfl
  rw [hfind]
  cases m.find id with
  | none => rfl
  | some j =>
    simp only
    by_cases hother : j.owner ≠ m.self
    · simp only [Node.respond, if_pos hother]
      exact (if_pos hother).symm
    · simp only [Node.respond, if_neg hother]
      split <;> rfl

theorem handleClaim_path (ctx : ReqCtx) (id : JobId) (proposed : Nat) (newOwner : Endpoint)
    (hq : Quiet m₀ m) (ht : t.ctx = some ctx) (ha : ctx.asked = .claim id proposed newOwner) :
    Path (Move t m₀) m (m.handleClaim ctx id proposed newOwner) := by
  have hquiet : t.seizes id = false := by
    rcases Trigger.eq_of_ctx ht with ⟨dst, rfl⟩
    rw [ha]
    rfl
  unfold Node.handleClaim
  split
  · exact .single (.plain m ctx _ ht (Or.inl (by decide)))
  · rename_i hsrc
    have hsrc' : newOwner = ctx.src := (not_not.mp hsrc).symm
    subst hsrc'
    cases hl : m.find id with
    | none => exact .single (.plain m ctx _ ht (Or.inl (by decide)))
    | some l =>
      simp only
      split
      · exact .single (.plain m ctx _ ht (Or.inl (by decide)))
      · rename_i hmember
        split
        · exact .single (.plain m ctx _ ht (Or.inl (by decide)))
        · rename_i hfence
          rw [not_or, not_and, not_not] at hfence
          split
          · rename_i hsame
            exact .single (.regrant m ctx id l ht (hsame ▸ ha) hl (not_not.mp hmember)
              (hfence.2 hsame))
          · rename_i hne
            have hserves : Serves t m₀ m ctx (.takeover id proposed ctx.src)
                (.claimInfo l.state l.leaseSeq) :=
              .claim id proposed l ht ha hl (not_not.mp hmember) (by omega) hq.store
            unfold Node.grantClaim
            have hout := commit_outcome m (.takeover id proposed ctx.src)
            generalize m.commit (.takeover id proposed ctx.src) = c at hout ⊢
            cases hout with
            | ok sched open_ =>
              simp only [if_true, afterOwnershipChange_respond]
              refine .head (.serve m ctx _ _ hserves open_) ((quiet_path ?_).trans
                (afterOwnershipChange_path id hquiet))
              constructor <;> rfl
            | failed s sched attempt closed =>
              simp only [Bool.false_eq_true, if_false]
              exact (spoil_path s sched (.serve ctx _ _ hserves) (by simp)
                (by simp [Starts]) attempt closed).tail (.plain _ ctx _ ht (Or.inl (by decide)))

theorem retryClaim_path (id : JobId) : Path (Move t m₀) m (m.retryClaim id) := by
  unfold Node.retryClaim
  cases hst : m.claims.lookup id with
  | none => exact .refl
  | some st =>
    simp only
    refine .head (.retry m id st (m.now + 1000) hst) ?_
    have hfind : ({ m with
        claims := m.claims.insert id { st with nextRetry := m.now + 1000 } } : Node).find id =
        m.find id := rfl
    rw [hfind]
    cases hj : m.find id with
    | none => exact .refl
    | some j => exact claimSends_path id j _ hj (fun s hs => (List.mem_filter.mp hs).1)

theorem claimTick_path (hm : Sound m) : Path (Move t m₀) m m.claimTick := by
  unfold Node.claimTick
  split
  · exact .refl
  · refine (quiet_path ?_).trans (loop_path _ _ (fun m' id _ => retryClaim_path id) ?_)
    · constructor <;> rfl
    · exact hm

end Claims

/-! ### Drains and finished calls -/

section Calls

variable {t : Trigger} {m₀ m : Node}

theorem handoff_path (id : JobId) : Path (Move t m₀) m (m.handoff id) := by
  unfold Node.handoff
  cases m.find id with
  | none => exact .refl
  | some j =>
    simp only
    cases (j.peers m.self).find? (fun s => m.isAlive s.2) with
    | none => exact .refl
    | some s => exact call_path _ _ _ _ (.drainHandoff id s.2) (fun _ _ => .refl)

/-- A walk of the table that finds no active job of ours has found there is none. -/
theorem terminal_of_walk {n : Node}
    (h : (n.walkJobs m.store.table.jobs.keys).1.filter m.holdsActive = []) (id : JobId) (j : Job)
    (hj : m.find id = some j) (howner : j.owner = m.self) : j.terminal = true := by
  have hmem : id ∈ (n.walkJobs m.store.table.jobs.keys).1 :=
    mem_arrange.mpr (AList.lookup_isSome.mp (Option.isSome_of_mem hj))
  have hnot := List.filter_eq_nil_iff.mp h id hmem
  simpa [Node.holdsActive, hj, howner] using hnot

theorem drainTick_path (hm : Sound m) : Path (Move t m₀) m m.drainTick := by
  unfold Node.drainTick
  split
  · exact .refl
  · rename_i hgo
    have hq : Quiet m
        (({ m with nextDrainTick := m.now + 500 } : Node).walkJobs m.store.table.jobs.keys).2 := by
      constructor <;> rfl
    simp only
    by_cases hheld : ((({ m with nextDrainTick := m.now + 500 } : Node).walkJobs
        m.store.table.jobs.keys).1.filter m.holdsActive) = []
    · -- Nothing is handed off, so the report is about the table the walk was over.
      rw [hheld, List.foldl_nil]
      split
      · refine .head (.drained m ?_ (terminal_of_walk hheld)) (quiet_path ?_)
        · rw [not_or, Bool.not_eq_false] at hgo
          exact hgo.1
        · constructor <;> rfl
      · exact quiet_path hq
    · rw [if_neg (fun h => hheld h.1)]
      refine (quiet_path hq).trans (loop_path _ _ (fun m' id _ => handoff_path id) ?_)
      exact hm

theorem handleDrainHandoff_path (ctx : ReqCtx) (id : JobId) (ht : t.ctx = some ctx)
    (ha : ctx.asked = .drainHandoff id) : Path (Move t m₀) m (m.handleDrainHandoff ctx id) := by
  have hseizes : t.seizes id = true := by
    rcases Trigger.eq_of_ctx ht with ⟨dst, rfl⟩
    simp [Trigger.seizes, ha]
  unfold Node.handleDrainHandoff
  cases m.find id with
  | none => exact .single (.plain m ctx _ ht (Or.inl (by decide)))
  | some j =>
    refine .tail ?_ (.plain _ ctx kCreated ht (Or.inr ⟨id, ha⟩))
    split
    · exact startTakeover_path id hseizes
    · exact .refl

/-- A callback runs. A confirmation answers the call being finished, in the
    state the trigger found. -/
theorem runCont_path (k : Cont) (st : Status) (body : Reply) (hm : Sound m)
    (h : st = kCreated ∨ st = kDuplicate → Answers t m₀ k st body ∧ Anchored m₀ m)
    (hstale : st = kStaleEpoch → ∀ id, t.seizes id = false) :
    Path (Move t m₀) m (m.runCont k st body) := by
  cases k with
  | fwdSubmit key =>
    unfold Node.runCont Node.onFwdSubmitReply
    simp only
    split
    · by_cases hok : st = kCreated ∨ st = kDuplicate
      · exact .single (.relay m key st body (h hok).1)
      · exact .single (.note m _ (not_or.mp hok))
    · exact .single (.note m _ ⟨by decide, by decide⟩)
  | replicate id slot =>
    exact onReplicateReply_path id slot st body (fun hok => ⟨(h hok).1, (h hok).2.store⟩)
  | apply id slot member r q =>
    by_cases hok : st = kCreated
    · subst hok
      have ha := h (Or.inl rfl)
      exact onApplyReply_ok id slot member r q body hm ha.1 ha.2.store ha.2.qstates
    · exact onApplyReply_fail id slot member r q st hm hok
  | fwdAck => exact .single (.note m _ trivial)
  | claim id dst =>
    exact onClaimReply_path id dst st body (fun hok =>
      ⟨(h (Or.inl hok)).1, (h (Or.inl hok)).2.claims, (h (Or.inl hok)).2.store⟩)
      (fun h => hstale h id)
  | resync id =>
    exact onResyncReply_path id st body (fun hok =>
      ⟨(h (Or.inl hok)).1, (h (Or.inl hok)).2.store⟩)
  | drainHandoff => exact .refl
  | fwdStatus id rest best => exact queryStatusTarget_path id rest _

/-- A call that failed: no confirmation. -/
theorem finishCall_fail (st : Status) (reqId : Nat) (hm : Sound m)
    (hst : ¬ (st = kCreated ∨ st = kDuplicate)) (hstale : st ≠ kStaleEpoch) :
    Path (Move t m₀) m (m.finishCall st .empty reqId) := by
  unfold Node.finishCall
  cases m.calls.lookup reqId with
  | none => exact .refl
  | some c =>
    exact .head (.finish m reqId) (runCont_path c.cont st .empty hm (fun h => absurd h hst)
      (fun h => absurd h hstale))

/-- A call that a response finishes. -/
theorem finishCall_reply (src dst : Endpoint) (boot reqId : Nat) (asked : Request) (st : Status)
    (body : Reply) (hm : Sound m) (hq : Quiet m₀ m)
    (ht : t = .packet (.response src dst boot reqId asked st body)) :
    Path (Move t m₀) m (m.finishCall st body reqId) := by
  unfold Node.finishCall
  cases hc : m.calls.lookup reqId with
  | none => exact .refl
  | some c =>
    refine .head (.finish m reqId) (runCont_path c.cont st body ?_ (fun _ => ⟨?_, ?_⟩) ?_)
    · exact hm
    · exact ⟨src, dst, boot, reqId, asked, c, ht, hq.calls ▸ hc, rfl⟩
    · exact ⟨hq.self, hq.store, hq.claims, hq.qstates⟩
    · rw [ht]
      exact fun _ _ => rfl

theorem failCallsTo_path (p : Endpoint) (hm : Sound m) : Path (Move t m₀) m (m.failCallsTo p) := by
  unfold Node.failCallsTo
  refine (quiet_path ?_).trans
    (loop_path _ _ (fun m' reqId hm' => finishCall_fail _ reqId hm' (by decide) (by decide)) ?_)
  · constructor <;> rfl
  · exact hm

theorem rpcTick_path (hm : Sound m) : Path (Move t m₀) m m.rpcTick := by
  unfold Node.rpcTick
  refine (quiet_path ?_).trans
    (loop_path _ _ (fun m' reqId hm' => finishCall_fail _ reqId hm' (by decide) (by decide)) ?_)
  · constructor <;> rfl
  · exact hm

theorem onPeerDead_path (p : Endpoint) (hm : Sound m) (ht : ∀ id, t.seizes id = true) :
    Path (Move t m₀) m (m.onPeerDead p) := by
  unfold Node.onPeerDead
  have hfail := @failCallsTo_path t m₀ m p hm
  refine hfail.trans
    ((quiet_path ?_).trans (loop_path _ _ (fun m' id _ => startTakeover_path id (ht id)) ?_))
  · constructor <;> rfl
  · have hafter := sound_of_path hfail hm
    exact hafter

theorem onPeerAlive_path (p : Endpoint) : Path (Move t m₀) m (m.onPeerAlive p) := by
  unfold Node.onPeerAlive
  -- The loop touches neither the store nor the name, so what was picked is still owned.
  have hstep : ∀ (m' : Node) (id : JobId),
      id ∈ (m.walkJobs m.store.table.jobs.keys).1.filter (m.shouldRepair p) →
      m'.store = m.store ∧ m'.self = m.self →
      Path (Move t m₀) m' { m' with repair := m'.repair.insert id 0 } ∧
        m'.store = m.store ∧ m'.self = m.self := by
    intro m' id hid hm'
    have hrep := (List.mem_filter.mp hid).2
    unfold Node.shouldRepair at hrep
    cases hfind : m.find id with
    | none => simp [hfind] at hrep
    | some j =>
      simp only [hfind, Bool.and_eq_true, decide_eq_true_eq] at hrep
      refine ⟨.single (.reset m' id j ?_ (hrep.1.trans hm'.2.symm)), hm'⟩
      rw [Node.find, hm'.1]
      exact hfind
  refine (quiet_path ?_).trans (Path.foldl (P := fun m' : Node => m'.store = m.store ∧
    m'.self = m.self) _ _ hstep (m.walkJobs m.store.table.jobs.keys).2 ⟨rfl, rfl⟩).1
  constructor <;> rfl

theorem tick_path (hm : Sound m) : Path (Move t m₀) m m.tick := by
  have h₁ := @rpcTick_path t m₀ m hm
  have hm₁ := sound_of_path h₁ hm
  have h₂ := @expiryTick_path t m₀ _ hm₁
  have hm₂ := sound_of_path h₂ hm₁
  have h₃ := @repairTick_path t m₀ _ hm₂
  have hm₃ := sound_of_path h₃ hm₂
  have h₄ := @claimTick_path t m₀ _ hm₃
  have hm₄ := sound_of_path h₄ hm₃
  exact h₁.trans (h₂.trans (h₃.trans (h₄.trans (drainTick_path hm₄))))

end Calls

/-! ### Restart -/

section Restart

/-- A node with the owner's bookkeeping of its jobs replaced. -/
def Node.setUp (m : Node) (repair : AList (fun _ : JobId => Nat))
    (deadlines : AList (fun _ : JobId => Time)) (ready : List JobId) : Node :=
  { m with repair, leaseDeadline := deadlines, ready }

/-- A function that neither reads nor writes the owner's bookkeeping. -/
def Aside (f : Node → Node) : Prop :=
  ∀ m repair deadlines ready,
    f (m.setUp repair deadlines ready) = (f m).setUp repair deadlines ready

theorem aside_foldl {α : Type} (f : Node → α → Node) (xs : List α) (h : ∀ x, Aside (f · x)) :
    Aside (xs.foldl f ·) := by
  intro m repair deadlines ready
  induction xs generalizing m with
  | nil => rfl
  | cons x xs ih =>
    have hx := h x m repair deadlines ready
    simp only at hx ih
    simp only [List.foldl_cons, hx, ih]

theorem aside_resyncCountdown (id : JobId) : Aside (resyncCountdown · id) := by
  intro m repair deadlines ready
  simp only [Node.resyncCountdown]
  have hl : (m.setUp repair deadlines ready).resyncInflight = m.resyncInflight := rfl
  rw [hl]
  cases m.resyncInflight.lookup id with
  | none => rfl
  | some k =>
    simp only
    split <;> rfl

theorem aside_call (dst : Endpoint) (body : Request) (k : Cont) (onBusy : Node → Node)
    (h : Aside onBusy) : Aside (call · dst body k onBusy) := by
  intro m repair deadlines ready
  simp only [Node.call]
  have hs : (m.setUp repair deadlines ready).sched = m.sched := rfl
  rw [hs]
  split
  · exact h { m with
      nextReq := m.nextReq + 1
      sched := { m.sched with busy := m.sched.busy.tail } } repair deadlines ready
  · rfl

theorem aside_resyncJob (id : JobId) : Aside (resyncJob · id) := by
  intro m repair deadlines ready
  simp only [Node.resyncJob]
  have hl : (m.setUp repair deadlines ready).resyncInflight = m.resyncInflight := rfl
  have hf : (m.setUp repair deadlines ready).find id = m.find id := rfl
  rw [hl, hf]
  split
  · rfl
  · cases m.find id with
    | none => rfl
    | some j =>
      have hloop := aside_foldl (fun n (s : Nat × Endpoint) =>
          n.call s.2 (.resync id) (.resync id) (fun n => n.onResyncReply id kBusy .empty))
        ((j.peers m.self).filter (fun s => m.isAlive s.2))
        (fun s => aside_call _ _ _ _ (fun m' => by
          simp only [Node.onResyncReply, if_pos (show kBusy ≠ kCreated by decide)]
          exact aside_resyncCountdown id m')) m repair deadlines ready
      simp only at hloop ⊢
      by_cases hnone : (j.peers m.self).filter (fun s => m.isAlive s.2) = []
      · rw [if_pos hnone]
        exact (if_pos hnone).trans hloop
      · rw [if_neg hnone]
        have hcount : ∀ (a b : Node) (k : Int), a = b.setUp repair deadlines ready →
            ({ a with resyncInflight := a.resyncInflight.insert id k } : Node) =
              ({ b with resyncInflight := b.resyncInflight.insert id k } : Node).setUp repair
                deadlines ready := by
          rintro _ b k rfl
          rfl
        exact (if_neg hnone).trans (hcount _ _ _ hloop)

theorem resyncJob_now (m : Node) (id : JobId) : (m.resyncJob id).now = m.now := by
  unfold Node.resyncJob
  split
  · rfl
  · cases m.find id with
    | none => rfl
    | some j =>
      have hloop : ∀ xs : List (Nat × Endpoint), (xs.foldl (fun n s =>
          n.call s.2 (.resync id) (.resync id) (fun n => n.onResyncReply id kBusy .empty)) m).now =
          m.now := by
        intro xs
        induction xs using List.reverseRecOn with
        | nil => rfl
        | append_singleton xs s ih =>
          rw [List.foldl_append, List.foldl_cons, List.foldl_nil, ← ih]
          unfold Node.call
          split
          · exact (onResyncReply_busy id).now
          · rfl
      simp only
      split
      · exact hloop _
      · exact hloop _

/-- What setting up replayed jobs leaves in the owner's bookkeeping. -/
structure SetUp (m : Node) (ids : List JobId) (repair : AList (fun _ : JobId => Nat))
    (deadlines : AList (fun _ : JobId => Time)) : Prop where
  kept : ∀ id, m.repair.lookup id = some 0 → repair.lookup id = some 0
  unconfirmed : ∀ id ∈ ids, ∀ j, m.find id = some j → j.owner = m.self → repair.lookup id = some 0
  armed : ∀ id d, deadlines.lookup id = some d → m.leaseDeadline.lookup id = some d ∨
    ∃ j, m.find id = some j ∧ j.state = .leased ∧ j.owner = m.self ∧ d = m.now + j.visibilityMs

/-- The set-up of one job, without its reconciliation. -/
theorem openJob_eq (m : Node) (id : JobId) :
    ∃ repair deadlines ready, SetUp m [id] repair deadlines ∧
      (m.openJob id = m.setUp repair deadlines ready ∨
        m.openJob id = (m.setUp repair deadlines ready).resyncJob id) := by
  unfold Node.openJob
  cases hfind : m.find id with
  | none =>
    refine ⟨m.repair, m.leaseDeadline, m.ready, ⟨fun _ h => h, ?_, fun _ _ h => Or.inl h⟩,
      Or.inl rfl⟩
    intro id' hid' j hj
    rw [List.mem_singleton.mp hid', hfind] at hj
    cases hj
  | some j =>
    have hzero : ∀ id', m.repair.lookup id' = some 0 →
        (m.repair.insert id 0).lookup id' = some 0 := by
      intro id' h
      by_cases hid : id' = id
      · rw [hid, AList.lookup_insert]
      · rw [AList.lookup_insert_ne hid]
        exact h
    have hown : ∀ id' ∈ [id], ∀ j', m.find id' = some j' → j'.owner = m.self →
        (m.repair.insert id 0).lookup id' = some 0 := by
      intro id' hid' _ _ _
      rw [List.mem_singleton.mp hid', AList.lookup_insert]
    simp only
    by_cases hother : j.owner ≠ m.self
    · rw [if_pos hother]
      refine ⟨m.repair, m.leaseDeadline, m.ready, ⟨fun _ h => h, ?_, fun _ _ h => Or.inl h⟩,
        Or.inl rfl⟩
      intro id' hid' j' hj' howned
      rw [List.mem_singleton.mp hid', hfind] at hj'
      exact absurd (Option.some.inj hj' ▸ howned) hother
    · rw [if_neg hother]
      cases hstate : j.state with
      | ready =>
        exact ⟨m.repair.insert id 0, m.leaseDeadline, m.ready ++ [id],
          ⟨hzero, hown, fun _ _ h => Or.inl h⟩, Or.inr rfl⟩
      | leased =>
        refine ⟨m.repair.insert id 0, m.leaseDeadline.insert id (m.now + j.visibilityMs), m.ready,
          ⟨hzero, hown, fun id' d h => ?_⟩, Or.inr rfl⟩
        rcases lookup_armed (Or.inr rfl) h with hold | ⟨hid, hd⟩
        · exact Or.inl hold
        · exact Or.inr ⟨j, hid ▸ hfind, hstate, not_not.mp hother, hd⟩
      | done | deadLetter =>
        exact ⟨m.repair.insert id 0, m.leaseDeadline, m.ready,
          ⟨hzero, hown, fun _ _ h => Or.inl h⟩, Or.inl rfl⟩

/-- Setting up jobs one by one, each followed by its reconciliation, is setting
    up all of them and then reconciling. -/
theorem openJobs_eq (ids : List JobId) (m : Node) :
    ∃ repair deadlines ready, ∃ resyncs : List JobId, SetUp m ids repair deadlines ∧
      ids.foldl openJob m = resyncs.foldl resyncJob (m.setUp repair deadlines ready) := by
  induction ids generalizing m with
  | nil =>
    exact ⟨m.repair, m.leaseDeadline, m.ready, [],
      ⟨fun _ h => h, by simp, fun _ _ h => Or.inl h⟩, rfl⟩
  | cons id ids ih =>
    rcases openJob_eq m id with ⟨r₁, d₁, q₁, h₁, heq₁⟩
    rcases ih (m.openJob id) with ⟨r₂, d₂, q₂, resyncs, h₂, heq₂⟩
    -- Whether or not the job is reconciled, name, copies and clock stand.
    have hsame : (m.openJob id).self = m.self ∧ (m.openJob id).store = m.store ∧
        (m.openJob id).now = m.now ∧ (m.openJob id).repair = r₁ ∧
        (m.openJob id).leaseDeadline = d₁ := by
      rcases heq₁ with heq | heq
      · rw [heq]
        exact ⟨rfl, rfl, rfl, rfl, rfl⟩
      · have hanch := (@resyncJob_spec (.input .tick) m (m.setUp r₁ d₁ q₁) id).2.1
        have haside := aside_resyncJob id m r₁ d₁ q₁
        simp only at haside
        refine ⟨?_, ?_, ?_, ?_, ?_⟩
        · rw [heq, hanch.self]; rfl
        · rw [heq, hanch.store]; rfl
        · rw [heq, resyncJob_now]; rfl
        · rw [heq, haside]; rfl
        · rw [heq, haside]; rfl
    rcases hsame with ⟨hself, hstore, hnow, hrep, hdl⟩
    have hfind : ∀ id', (m.openJob id).find id' = m.find id' := fun id' => by
      rw [Node.find, hstore]; rfl
    have hset : SetUp m (id :: ids) r₂ d₂ := by
      refine ⟨fun id' h => h₂.kept id' (hrep ▸ h₁.kept id' h), ?_, fun id' d h => ?_⟩
      · intro id' hid' j hj howned
        rcases List.mem_cons.mp hid' with rfl | hrest
        · exact h₂.kept _ (hrep ▸ h₁.unconfirmed _ (by simp) j hj howned)
        · exact h₂.unconfirmed id' hrest j (hfind id' ▸ hj) (hself ▸ howned)
      · rcases h₂.armed id' d h with hold | ⟨j, hj, hs, ho, hd⟩
        · exact h₁.armed id' d (hdl ▸ hold)
        · exact Or.inr ⟨j, hfind id' ▸ hj, hs, hself ▸ ho, hnow ▸ hd⟩
    rw [List.foldl_cons, heq₂]
    rcases heq₁ with heq | heq
    · exact ⟨r₂, d₂, q₂, resyncs, hset, by rw [heq]; rfl⟩
    · refine ⟨r₂, d₂, q₂, id :: resyncs, hset, ?_⟩
      have haside := aside_resyncJob id (m.setUp r₁ d₁ q₁) r₂ d₂ q₂
      simp only at haside
      rw [heq, List.foldl_cons, ← haside]
      rfl

/-- A new incarnation: everything replayed is set up in one move, then the
    owned active jobs are reconciled. -/
theorem restart_path {t : Trigger} {m₀ m : Node} (boot : Nat) (hq : Quiet m₀ m)
    (ht : t = .input (.restart boot)) : Path (Move t m₀) m (m.restart boot) := by
  unfold Node.restart
  simp only
  rcases openJobs_eq ((m.reboot boot).walkJobs (m.reboot boot).store.table.jobs.keys).1
    ((m.reboot boot).walkJobs (m.reboot boot).store.table.jobs.keys).2 with
    ⟨repair, deadlines, ready, resyncs, hset, heq⟩
  rw [heq]
  refine .head (.reboot m boot repair deadlines ht ⟨hq.boot, hq.boots⟩ ?_ ?_ hq.store)
    ((quiet_path ?_).trans (loop_path _ _ (fun m' id _ => (resyncJob_spec id).1) ?_))
  · intro id j hj howned
    refine hset.unconfirmed id ?_ j hj howned
    refine mem_arrange.mpr ?_
    exact AList.mem_keys.mpr (AList.lookup_isSome.mp (by
      change (m.store.reopen.table.find id).isSome = true
      rw [hj]
      rfl))
  · intro id d hd
    rcases hset.armed id d hd with hold | ⟨j, hj, hs, ho, hd⟩
    · cases hold
    · exact ⟨j, hj, hs, ho, hd⟩
  · constructor <;> rfl
  · intro s hs
    cases hs

end Restart

/-! ### Any trigger -/

/-- Handling a trigger, under any choices of the environment, is a path of
    moves. -/
theorem react_path (m₀ : Node) (sched : Sched) (t : Trigger) (hm : Sound m₀) :
    Path (Move t m₀) m₀ (({ m₀ with sched } : Node).react t) := by
  have hq : Quiet m₀ { m₀ with sched } := by constructor <;> rfl
  have hm' : Sound { m₀ with sched } := hm
  refine (quiet_path hq).trans ?_
  generalize ({ m₀ with sched } : Node) = m at hq hm' ⊢
  cases t with
  | input i =>
    cases i with
    | submit p => exact submit_path p hq rfl
    | lease worker => exact lease_path worker hm' hq rfl
    | ack id epoch leaseSeq success => exact ack_path id epoch leaseSeq success hm' hq rfl
    | status id => exact queryStatusTarget_path id _ none
    | tick => exact tick_path hm'
    | advance d => exact .single (.advance m d)
    | view peers => exact .single (.view m peers rfl)
    | peerDead p => exact onPeerDead_path p hm' (fun _ => rfl)
    | peerAlive p => exact onPeerAlive_path p
    | hello p => exact failCallsTo_path p hm'
    | drain => exact .head (.drain m rfl) (quiet_path (by constructor <;> rfl))
    | compact => exact .head (.compact m _) (quiet_path (by constructor <;> rfl))
    | restart boot => exact restart_path boot hq rfl
  | packet p =>
    cases p with
    | response src dst boot reqId asked st body =>
      exact finishCall_reply src dst boot reqId asked st body hm' hq rfl
    | request src dst boot reqId asked =>
      cases asked with
      | fwdSubmit p => exact handleFwdSubmit_path _ p hq rfl rfl
      | replicate j => exact handleReplicate_path _ j hq rfl rfl
      | claim id proposed newOwner => exact handleClaim_path _ id proposed newOwner hq rfl rfl
      | resync id => exact show_path _ id rfl (Or.inl rfl)
      | fwdAck id epoch leaseSeq success =>
        exact handleFwdAck_path _ id epoch leaseSeq success hm' hq rfl rfl
      | fwdStatus id => exact show_path _ id rfl (Or.inr rfl)
      | apply r => exact handleApply_path _ r hq rfl rfl
      | drainHandoff id => exact handleDrainHandoff_path _ id rfl rfl

end Tautq
