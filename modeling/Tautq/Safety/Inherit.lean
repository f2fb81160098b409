import Tautq.Safety.Epochs

/-!
# Takeovers Inherit Granted Leases

A lease is granted once its owner and another member have it, and a takeover
is finalised once a second member has granted the claim. The two pairs meet,
so the new owner hears of the lease, provided that the member they share still
knows it and says so.

It need not. Apply requests ride an unordered channel and a lease record sets
the sequence number whatever it was, so a late record of an old lease makes a
member forget a newer one (`lease_forgotten`). A full copy of a later epoch
does the same when its owner has not heard of the lease; a grant can be
counted for a claim it was not given to; and the result of the append that
makes the inherited lease durable is not looked at.

The conditions exclude these, step by step. What they buy is `Climbs`: along a
log no record makes a copy forget a lease. A member that granted a claim has
then reported every lease it ever hears of below the claimed epoch (`Told`),
whenever that is, because below that epoch it hears of nothing any more.

## Main definitions

* `Covers`: A copy that is over, or whose sequence number is large enough.
* `Inheritable`, `AppendsGrants`: The conditions.
* `Climbs`: No record of a log makes a copy forget a lease.
* `Heard`: A node has held a copy that covers a lease.

## Theorems

* `lease_forgotten`: A takeover at epoch 2 inherits lease 1 after lease 2 was
  granted.
* `climbs`: Under the conditions no node forgets a lease.
* `takeover_inherits`: Under the conditions a takeover inherits every granted
  lease.
-/

namespace Tautq

open Status Cluster

/-- What is to be known of a lease: that the job is over, or a sequence number at
    least as large. -/
def Covers (state : JobState) (leaseSeq n : Nat) : Prop :=
  state = .done ∨ state = .deadLetter ∨ n ≤ leaseSeq

/-- A copy covers a lease. -/
def Job.covers (j : Job) (n : Nat) : Prop :=
  Covers j.state j.leaseSeq n

/-- A lease record that is delivered does not lower the sequence number of the copy
    it changes. -/
def LeasesClimb : Cond := fun c e t =>
  match t with
  | .packet (.request _ _ _ _ (.apply (.lease id epoch leaseSeq _))) =>
    ∀ l ∈ (c.node e).find id, l.terminal = false → l.epoch ≤ epoch → l.leaseSeq ≤ leaseSeq
  | _ => True

/-- A full copy that replaces the stored one knows as much of the leases. -/
def CopiesClimb : Cond := fun c e t =>
  ∀ j ∈ t.brings (c.node e), ∀ l ∈ (c.node e).find j.id, jobAdvances l j = true →
    j.terminal = true ∨ (l.terminal = false ∧ l.leaseSeq ≤ j.leaseSeq)

/-- A grant is for the claim that stands. -/
def GrantsStand : Cond := fun c e t =>
  match t with
  | .packet (.response _ _ _ reqId (.claim _ proposed _) code _) =>
    match (c.node e).calls.lookup reqId with
    | some { cont := .claim id _, .. } =>
      code = kCreated → ∀ st ∈ (c.node e).claims.lookup id, proposed = st.proposed
    | _ => True
  | _ => True

/-- A lease that is decided is not behind the copy the grant is built from. -/
def DecidesNewest : Cond := fun c e t =>
  match t.decides (c.node e) with
  | some (.lease id _ leaseSeq _) => ∀ l ∈ (c.node e).find id, l.leaseSeq ≤ leaseSeq
  | _ => True

/-- Responses are matched, grants stand, and nothing lowers a sequence number. -/
def Inheritable : Cond := fun c e t =>
  Matched c e t ∧ LeasesClimb c e t ∧ CopiesClimb c e t ∧ Unwrapped c e t ∧ GrantsStand c e t ∧
    DecidesNewest c e t

/-- The append that may follow a grant works: the log has not stopped and the disk
    does not fail it. -/
def AppendsGrants (c : Cluster) (a : Act) : Prop :=
  ∀ x ∈ c.target a, (x.2.grants (c.node x.1)).isSome →
    (c.node x.1).store.failed = false ∧ (choices a).disk.headD .durable = .durable

instance (c : Cluster) (e : Endpoint) (t : Trigger) : Decidable (LeasesClimb c e t) :=
  match t with
  | .packet (.request _ _ _ _ (.apply (.lease _ _ _ _))) =>
    inferInstanceAs (Decidable (∀ l ∈ _, _ → _ → _))
  | .packet (.request _ _ _ _ (.apply (.submit _))) | .packet
    (.request _ _ _ _ (.apply (.replicate _)))
  | .packet (.request _ _ _ _ (.apply (.done _ _ _)))
  | .packet (.request _ _ _ _ (.apply (.expire _ _ _)))
  | .packet (.request _ _ _ _ (.apply (.deadLetter _ _)))
  | .packet (.request _ _ _ _ (.apply (.takeover _ _ _)))
  | .packet (.request _ _ _ _ (.fwdSubmit _)) | .packet (.request _ _ _ _ (.replicate _))
  | .packet (.request _ _ _ _ (.claim _ _ _)) | .packet (.request _ _ _ _ (.resync _))
  | .packet (.request _ _ _ _ (.fwdAck _ _ _ _)) | .packet (.request _ _ _ _ (.fwdStatus _))
  | .packet (.request _ _ _ _ (.drainHandoff _))
  | .packet (.response _ _ _ _ _ _ _) | .input _ => instDecidableTrue

instance (c : Cluster) (e : Endpoint) (t : Trigger) : Decidable (CopiesClimb c e t) :=
  inferInstanceAs (Decidable (∀ j ∈ t.brings (c.node e), ∀ l ∈ (c.node e).find j.id,
    jobAdvances l j = true → j.terminal = true ∨ (l.terminal = false ∧ l.leaseSeq ≤ j.leaseSeq)))

instance (c : Cluster) (e : Endpoint) (t : Trigger) : Decidable (GrantsStand c e t) := by
  unfold GrantsStand
  split
  · split <;> infer_instance
  · infer_instance

instance (c : Cluster) (e : Endpoint) (t : Trigger) : Decidable (DecidesNewest c e t) := by
  unfold DecidesNewest
  generalize t.decides (c.node e) = d
  exact match d with
    | some (.lease _ _ _ _) => inferInstanceAs (Decidable (∀ l ∈ _, _))
    | some .ignore | some (.ack _ _) | none => instDecidableTrue

instance (c : Cluster) (e : Endpoint) (t : Trigger) : Decidable (Inheritable c e t) :=
  inferInstanceAs (Decidable (Matched c e t ∧ LeasesClimb c e t ∧ CopiesClimb c e t ∧
    Unwrapped c e t ∧ GrantsStand c e t ∧ DecidesNewest c e t))

instance (c : Cluster) (a : Act) : Decidable (AppendsGrants c a) :=
  inferInstanceAs (Decidable (∀ x ∈ c.target a, (x.2.grants (c.node x.1)).isSome →
    (c.node x.1).store.failed = false ∧ (choices a).disk.headD .durable = .durable))

/-! ### A lease that is forgotten -/

namespace Trio

/-- `a` grants lease 1 with the confirmation of `c` and, after a nack, lease 2 with
    that of `b`. Then the request that carries lease 1 reaches `b`, which takes over
    with the grant of `c`. -/
def lateLease : List Act :=
  unleased ++
    [.does a (.lease 7), .takes a 3, .takes c 1, .does a (.ack job 1 1 false),
      .does a (.advance 1000), .does a (.lease 8), .takes a 6, .takes b 1,
    -- The late record.
      .takes a 2, .does b (.view [c]), .does b (.peerDead a), .takes b 3]

/-- What the worker was handed with lease 2. -/
def secondGrant : LeaseGrant where
  id := job
  url := [1]
  body := [7]
  idemKey := [1]
  epoch := 1
  leaseSeq := 2
  visibilityMs := 30000
  attempt := 2

end Trio

/-- Lease 2 of epoch 1 has been granted; the takeover at epoch 2 ends with a copy
    leased under sequence number 1. -/
theorem lease_forgotten : ∃ c c', Trio.cluster.init.exec Trio.lateLease = some c ∧
    c.exec [.takes Trio.c 2] = some c' ∧
    .granted (.lease Trio.job 1 2 8) Trio.secondGrant 1000 ∈ (c.node Trio.a).events ∧
    ∃ copy new, (c'.node Trio.b).events = new ++ (c.node Trio.b).events ∧
      .finalized copy ∈ new ∧ copy.id = Trio.job ∧ copy.epoch = 2 ∧ copy.state = .leased ∧
      copy.leaseSeq = 1 := by
  have hshow : ∃ c c', Trio.cluster.init.exec Trio.lateLease = some c ∧
      c.exec [.takes Trio.c 2] = some c' ∧
      .granted (.lease Trio.job 1 2 8) Trio.secondGrant 1000 ∈ (c.node Trio.a).events ∧
      ∃ copy ∈ (c'.node Trio.b).find Trio.job,
        (c'.node Trio.b).events = [.finalized copy] ++ (c.node Trio.b).events ∧
        copy.id = Trio.job ∧ copy.epoch = 2 ∧ copy.state = .leased ∧ copy.leaseSeq = 1 :=
    run_turns (by decide +kernel)
  rcases hshow with ⟨c, c', hc, hc', hgrant, copy, _, hev, hcopy⟩
  exact ⟨c, c', hc, hc', hgrant, copy, [.finalized copy], hev, List.mem_singleton.mpr rfl, hcopy⟩

/-! ### What a copy knows of leases -/

theorem Job.covers_of_terminal {j : Job} (h : j.terminal = true) (n : Nat) : j.covers n := by
  simp only [Job.terminal, Bool.or_eq_true, decide_eq_true_eq] at h
  rcases h with h | h
  · exact Or.inl h
  · exact Or.inr (Or.inl h)

/-- An active copy covers what is not above its sequence number. -/
theorem Job.covers_iff_of_active {j : Job} (h : j.terminal = false) (n : Nat) :
    j.covers n ↔ n ≤ j.leaseSeq := by
  simp only [Job.terminal, Bool.or_eq_false_iff, decide_eq_false_iff_not] at h
  simp only [Job.covers, Covers, h, false_or]

/-- A transition forgets no lease, unless it is a lease record with a smaller
    number. -/
theorem Record.on_covers (r : Record) (l : Job) (hr : r.full = none)
    (hlease : ∀ id epoch s worker, r = .lease id epoch s worker → l.terminal = false →
      l.epoch ≤ epoch → l.leaseSeq ≤ s) (n : Nat) (hn : l.covers n) : (r.on l).covers n := by
  cases r with
  | submit | replicate => cases hr
  | lease id epoch s worker =>
    simp only [on]
    split
    case isTrue hg =>
      have hact : l.terminal = false := by simp [Job.terminal, hg.2]
      have hle := hlease id epoch s worker rfl hact hg.1
      exact Or.inr (Or.inr (((Job.covers_iff_of_active hact n).mp hn).trans hle))
    case isFalse => exact hn
  | done =>
    simp only [on]
    split
    · exact Or.inl rfl
    · exact hn
  | deadLetter =>
    simp only [on]
    split
    · exact Or.inr (Or.inl rfl)
    · exact hn
  | expire id epoch s =>
    simp only [on]
    split
    case isTrue hg =>
      have hact : l.terminal = false := by simp [Job.terminal, hg.2.1]
      exact Or.inr (Or.inr ((Job.covers_iff_of_active hact n).mp hn))
    case isFalse => exact hn
  | takeover id epoch o =>
    have hsame := takeover_on_state id epoch o l
    rw [Job.covers, hsame.1, hsame.2]
    exact hn

/-- No record of a log makes a copy forget a lease. -/
abbrev Climbs (log : List Record) : Prop :=
  Steps (fun a b => ∀ n, a.covers n → b.covers n) log

namespace Climbs

/-- What a copy has covered, the current one covers. -/
theorem covers {log : List Record} {id : JobId} {j : Job} (hc : Climbs log) (hj : Held log id j) :
    ∃ l, (replay log).find id = some l ∧ ∀ n, j.covers n → l.covers n :=
  hc.held (fun _ _ h => h) (fun h h' n hn => h' n (h n hn)) hj

/-- The stored copy covers what a copy of an earlier epoch has covered, even while a
    record is in doubt. -/
theorem covers_find {n : Node} {id : JobId} {j l : Job} (hp : Proper n.store.log)
    (hc : Climbs n.store.log) (hl : n.find id = some l) (hj : Held n.store.log id j)
    (hlt : j.epoch < l.epoch) (k : Nat) (hk : j.covers k) : l.covers k := by
  have hfind : (replay n.store.wal).find id = some l := by
    rw [← n.store.replayed]
    exact hl
  -- The record in doubt would leave an epoch at least as large.
  rcases hp.held_late n.store.wal_prefix_log hj with hwal | hlate
  · rcases Climbs.covers (hc.mono n.store.wal_prefix_log) hwal with ⟨l', hl', hcov⟩
    have hll : l' = l := Option.some.inj (hl'.symm.trans hfind)
    exact hll ▸ hcov k hk
  · have hle := hlate l (held_last hfind)
    omega

end Climbs

/-- An inherited lease does not lower a sequence number. -/
theorem inherits_lease_le {id id' : JobId} {st : ClaimState} {l : Job} {epoch s worker : Nat}
    (h : Node.inherits id st l = some (.lease id' epoch s worker)) : l.leaseSeq ≤ s := by
  unfold Node.inherits at h
  split at h
  · cases h
  · split at h
    · cases h
    · split at h
      · cases h
        split <;> omega
      · cases h

section Invariants

variable {K : Cond} {d : Deployment} {c : Cluster} {e : Endpoint} {t : Trigger} {m m' : Node}

/-- A lease record that is not another node's does not lower a sequence number. -/
theorem Writes.lease_cases (hwrap : Unwrapped c e t) {id : JobId} {epoch s worker : Nat} {l : Job}
    (hw : Writes t (c.node e) m (.lease id epoch s worker)) (hl : m.find id = some l) :
    (∃ ctx body, Serves t (c.node e) m ctx (.lease id epoch s worker) body) ∨ l.leaseSeq ≤ s := by
  cases hw with
  | serve ctx _ body serves => exact Or.inl ⟨ctx, body, serves⟩
  | begin_ id' l' _ d' found owned begins =>
    cases begins with
    | lease worker' trigger ready within first =>
      have hll : l' = l := Option.some.inj (found.symm.trans hl)
      subst hll
      subst trigger
      rw [Node.find, first] at found
      rw [hwrap.next found]
      exact Or.inr (Nat.le_succ _)
  | inherit id' st l' _ ripe found owned inherits =>
    have hid : id = id' := (inherits_spec inherits).1
    subst hid
    have hll : l' = l := Option.some.inj (found.symm.trans hl)
    subst hll
    exact Or.inr (inherits_lease_le inherits)

/-- Nor does one of another node, where those climb. -/
theorem Writes.lease_climbs (hleases : LeasesClimb c e t) (hwrap : Unwrapped c e t) {id : JobId}
    {epoch s worker : Nat} {l : Job} (hw : Writes t (c.node e) m (.lease id epoch s worker))
    (hl : m.find id = some l) (hact : l.terminal = false) (hle : l.epoch ≤ epoch) :
    l.leaseSeq ≤ s := by
  rcases hw.lease_cases hwrap hl with ⟨ctx, body, serves⟩ | hclimbs
  · cases serves with
    | apply _ epoch' l' trigger asked fence found unfenced owner first =>
      rcases Trigger.eq_of_ctx trigger with ⟨dst, rfl⟩
      rw [asked] at hleases
      rw [Node.find, first] at hl
      exact hleases l hl hact hle
  · exact hclimbs

/-- No record being written makes a copy forget a lease. -/
theorem Inside.on_covers (hK : Inheritable c e t) (hin : Inside K d c e t m) {r : Record} {l : Job}
    (hw : Writes t (c.node e) m r) (hl : m.find r.jobId = some l) (n : Nat) (hn : l.covers n) :
    (r.on l).covers n := by
  cases r with
  | submit b => exact absurd (Node.held_of_find hl) (hin.mint_unheld hw)
  | replicate j =>
    simp only [Record.on]
    split
    case isTrue hadv =>
      rcases hw.brings with ⟨hbrings, hfirst⟩
      rw [Node.find, hfirst] at hl
      rcases hK.2.2.1 j hbrings l hl hadv with hterm | ⟨hact, hle⟩
      · exact Job.covers_of_terminal hterm n
      · exact Or.inr (Or.inr (((Job.covers_iff_of_active hact n).mp hn).trans hle))
    case isFalse => exact hn
  | lease id epoch s worker =>
    refine Record.on_covers _ l rfl (fun id' epoch' s' worker' hr hact hle => ?_) n hn
    cases hr
    exact hw.lease_climbs hK.2.1 hK.2.2.2.1 hl hact hle
  | done | expire | deadLetter | takeover =>
    exact Record.on_covers _ l rfl (fun _ _ _ _ hr => by cases hr) n hn

/-- No node forgets a lease. -/
theorem climbs (hK : ∀ c e t, K c e t → Inheritable c e t) :
    Always K d (fun w => ∀ e, Climbs (w e).store.log) :=
  always_of_writes (R := fun _ a b => ∀ n, a.covers n → b.covers n)
    (fun hin hw hl n hn => hin.on_covers (hK _ _ _ hin.allowed) hw hl n hn)

/-! ### Who has heard of a lease -/

/-- A node has held a copy, up to an epoch, that covers a lease. -/
def Heard (w : World) (x : Endpoint) (id : JobId) (epoch n : Nat) : Prop :=
  ∃ j, Held (w x).store.log id j ∧ j.epoch ≤ epoch ∧ j.covers n

theorem Heard.grows {w w' : World} {x : Endpoint} {id : JobId} {epoch n : Nat} (h : w.Grows w')
    (hh : Heard w x id epoch n) : Heard w' x id epoch n := by
  rcases hh with ⟨j, hj, he, hn⟩
  exact ⟨j, hj.mono (h x).log, he, hn⟩

theorem Heard.weaken {w : World} {x : Endpoint} {id : JobId} {epoch epoch' n n' : Nat}
    (hh : Heard w x id epoch n) (he : epoch ≤ epoch') (hn : n' ≤ n) : Heard w x id epoch' n' := by
  rcases hh with ⟨j, hj, hje, hcov⟩
  refine ⟨j, hj, hje.trans he, ?_⟩
  rcases hcov with h | h | h
  · exact Or.inl h
  · exact Or.inr (Or.inl h)
  · exact Or.inr (Or.inr (hn.trans h))

/-- A lease record that is not fenced off leaves a copy that covers the lease. -/
theorem lease_heard {w : World} {x : Endpoint} {id : JobId} {epoch s worker : Nat} {l : Job}
    (hheld : Held (w x).store.log id ((Record.lease id epoch s worker).on l))
    (hle : l.epoch ≤ epoch) : Heard w x id epoch s := by
  refine ⟨_, hheld, ?_, ?_⟩
  · rcases Record.on_epoch_cases l (r := .lease id epoch s worker) rfl with he | he <;> omega
  · simp only [Record.on]
    split
    case isTrue => exact Or.inr (Or.inr le_rfl)
    case isFalse hg =>
      refine Job.covers_of_terminal ?_ s
      by_contra hact
      simp only [Job.terminal, Bool.or_eq_true, decide_eq_true_eq, not_or] at hact
      exact hg ⟨hle, hact⟩

/-- Who has heard of the leases a node has confirmed or handed out. -/
structure Leases (w : World) (n : Node) : Prop where
  confirmed : ∀ dst boot reqId id epoch s worker body,
    .response n.self dst boot reqId (.apply (.lease id epoch s worker)) kCreated body ∈ n.outbox →
      Heard w n.self id epoch s
  granted : ∀ r g at_, .granted r g at_ ∈ n.events → Heard w n.self g.id g.epoch g.leaseSeq ∧
    ((∃ x, x ≠ n.self ∧ Heard w x g.id g.epoch g.leaseSeq) ∨
      ∃ j, Held n.store.log g.id j ∧ j.peers n.self = [])

theorem Leases.mono {w w' : World} {n : Node} (hg : w.Grows w') (h : Leases w n) : Leases w' n where
  confirmed dst boot reqId id epoch s worker body hp :=
    (h.confirmed dst boot reqId id epoch s worker body hp).grows hg
  granted r g at_ hev := by
    rcases h.granted r g at_ hev with ⟨hself, hother⟩
    exact ⟨hself.grows hg, hother.imp (fun ⟨x, hne, hx⟩ => ⟨x, hne, hx.grows hg⟩) (fun h => h)⟩

/-- A lease this node has appended as the owner was heard of here, and the copy has
    at least its epoch by now. -/
theorem Committed.heard {w : World} {x : Endpoint} {id : JobId} {epoch s worker : Nat} {j : Job}
    (hp : Proper (w x).store.log) (h : Committed (w x) id (.lease id epoch s worker))
    (hj : (w x).find id = some j) : Heard w x id epoch s ∧ epoch ≤ j.epoch := by
  rcases h with ⟨v, l, hv, hl, _, htrans⟩
  have hepoch : l.epoch = epoch := Option.some.inj htrans.fence.symm
  have hafter := find_apply_of_some (.lease id epoch s worker) hl
  rw [show (Record.lease id epoch s worker).jobId = id from rfl, if_pos rfl,
    ← replay_snoc] at hafter
  have hwal : Held (w x).store.wal id ((Record.lease id epoch s worker).on l) :=
    (held_last hafter).mono hv
  refine ⟨lease_heard (hwal.mono (w x).store.wal_prefix_log) hepoch.le, ?_⟩
  rcases (hp.mono (w x).store.wal_prefix_log).epoch_le hwal with ⟨l', hl', hle⟩
  rw [← (w x).store.replayed] at hl'
  have hll : l' = j := Option.some.inj (hl'.symm.trans hj)
  rw [hll] at hle
  rcases Record.on_epoch_cases l (r := .lease id epoch s worker) rfl with he | he <;> omega

theorem leases (hK : ∀ c e t, K c e t → Inheritable c e t) :
    Always K d (fun w => ∀ e, Leases w (w e)) := by
  refine always_of_node (fun hg => Leases.mono hg)
    (fun e => by constructor <;> simp [Deployment.init])
    (fun {c e t m m'} hin hc hm hgrow hmove => ?_)
  have hwire := wire.inside hin e
  have hnames := names.reach hin.reach
  have hme := hin.self_eq
  have hself := hmove.self_eq.1
  have hafter := (hin.tail hmove).grows
  rw [Function.update_self] at hwire
  refine ⟨?_, ?_⟩
  · intro dst boot reqId id epoch s worker body hp
    rw [hself] at hp ⊢
    rcases hmove.response_cases hp with hold | hnew
    · exact (hm.confirmed dst boot reqId id epoch s worker body hold).grows hgrow
    · rcases hnew.confirms hwire (Or.inr ⟨_, rfl⟩) with ⟨ctx, r, _, ha, serves, stored⟩
      cases serves with
      | copy j trigger asked => rw [asked] at ha; cases ha
      | claim id' proposed l trigger asked => rw [asked] at ha; cases ha
      | apply _ epoch' l trigger asked fence found unfenced =>
        have hr : r = .lease id epoch s worker := Request.apply.inj (asked.symm.trans ha)
        subst hr
        cases fence
        have hheld : Held (Function.update c.node e m' m.self).store.log id
            ((Record.lease id epoch s worker).on l) := by
          rw [hme, Function.update_self]
          exact Node.held_of_find (Node.find_append found stored rfl)
        exact lease_heard hheld unfenced
  · intro r g at_ hev
    rw [hself]
    rcases hmove.event_cases hev with hold | hnew
    · rcases hm.granted r g at_ hold with ⟨hown, hother⟩
      refine ⟨hown.grows hgrow, ?_⟩
      rcases hother with ⟨x, hne, hx⟩ | ⟨j, hj, hp⟩
      · exact Or.inl ⟨x, hne, hx.grows hgrow⟩
      · exact Or.inr ⟨j, hj.mono hmove.log_prefix, hp⟩
    · cases hnew with
      | idle _ h => cases h
      | grantAlone id l r' epoch s worker found owned begins peers stored =>
        cases begins with
        | lease _ trigger ready =>
          -- The copy the grant is built from is the one just stored.
          have hheld : Held m'.store.log id
              ((Record.lease id l.epoch ((l.leaseSeq + 1) % 2 ^ 32) worker).on l) :=
            Node.held_of_find (Node.find_append found stored rfl)
          refine ⟨⟨_, ?_, le_rfl, Or.inr (Or.inr le_rfl)⟩, Or.inr ⟨_, hheld, ?_⟩⟩
          · rw [hme, Function.update_self]
            exact hheld
          · rw [((Record.lease _ _ _ _).on_same l rfl).peers]
            exact peers
      | grant id id' slot member r' q s body epoch leaseSeq worker j answers state
        pending isLease found
          first same =>
        have hKc := hK c e t hin.allowed
        rcases hin.applied hKc.1 answers with ⟨other, ⟨boot, reqId, hp⟩, hcom⟩
        have hcar := (hin.carried answers (same ▸ state)).2
        rw [isLease] at hcar
        have hr : r' = .lease id' epoch leaseSeq worker := hcar
        subst hr
        have hfind := Node.find_of_store first found
        rcases Committed.heard (copies.reach hin.reach e).proper hcom hfind with ⟨hown, hle⟩
        -- The grant is built from a copy that is not ahead of the lease.
        have hseq : j.leaseSeq ≤ leaseSeq := by
          have hdec := hKc.2.2.2.2.2
          unfold DecidesNewest at hdec
          rw [answers.decides (same ▸ state) pending, isLease] at hdec
          exact hdec j hfind
        have hx := (hc member).confirmed e boot reqId id' epoch leaseSeq worker body
          (by rw [(hnames member).1]; exact hp)
        rw [(hnames member).1] at hx
        rw [hme]
        exact ⟨(hown.weaken hle hseq).grows hafter,
          Or.inl ⟨member, other, (hx.weaken hle hseq).grows hafter⟩⟩

/-! ### What a grant reports -/

/-- A matched grant that stands was given to the claim at hand. -/
theorem Inside.grant_stands (hmatch : Matched c e t) (hstand : GrantsStand c e t)
    (hin : Inside K d c e t m) {id : JobId} {dst : Endpoint} {body : Reply} {st : ClaimState}
    (h : Answers t (c.node e) (.claim id dst) kCreated body)
    (hst : (c.node e).claims.lookup id = some st) :
    ∃ state s, body = .claimInfo state s ∧ dst ≠ e ∧
      Replied c.node dst e (.claim id st.proposed e) kCreated body := by
  rcases h with ⟨src, dst', boot, reqId, asked, call, rfl, hcall, hk⟩
  rcases hin.finished rfl hcall with ⟨hrep, hfits, hexp | ⟨_, hnot⟩⟩
  · rw [hk] at hexp
    cases hexp with
    | claim _ proposed other =>
      rcases call with ⟨peer, deadline, cont⟩
      change cont = .claim id dst at hk
      subst hk
      simp only [GrantsStand, hcall] at hstand
      rw [← hstand trivial st hst]
      rcases hfits with ⟨_, state, s, hbody⟩ | ⟨hne, _⟩
      · exact ⟨state, s, hbody, other, hrep⟩
      · exact absurd rfl hne
  · exact absurd hmatch hnot

/-- A node that has granted a claim has the claimed epoch, and has reported
    everything it ever hears of below it. -/
def Told (n : Node) : Prop :=
  ∀ dst boot reqId id proposed o state s,
    .response n.self dst boot reqId (.claim id proposed o) kCreated
    (.claimInfo state s) ∈ n.outbox →
      0 < proposed ∧ (∃ j, Held n.store.log id j ∧ proposed ≤ j.epoch) ∧
        ∀ j, Held n.store.log id j → j.epoch < proposed → ∀ k, j.covers k → Covers state s k

theorem told (hK : ∀ c e t, K c e t → Inheritable c e t) :
    Always K d (fun w => ∀ e, Told (w e)) := by
  refine always_of_node (Q := fun _ n => Told n) (fun _ h => h)
    (fun e => by simp [Told, Deployment.init]) (fun {c e t m m'} hin _ hm _ hmove => ?_)
  have hproper := (copies.inside hin e).proper
  have hproper' := (copies.inside (hin.tail hmove) e).proper
  have hclimb := (climbs hK).inside hin e
  have howners := owners.inside hin e
  rw [Function.update_self] at hproper hproper' hclimb howners
  intro dst boot reqId id proposed o state s hp
  rw [hmove.self_eq.1] at hp
  rcases hmove.response_cases hp with hold | hnew
  · -- Copies that turn up later are of a later epoch.
    rcases hm dst boot reqId id proposed o state s hold with ⟨hpos, ⟨j₀, hj₀, hle⟩, hrep⟩
    refine ⟨hpos, ⟨j₀, hj₀.mono hmove.log_prefix, hle⟩, fun j hj hlt => ?_⟩
    rcases hproper'.held_late hmove.log_prefix hj with hprev | hlate
    · exact hrep j hprev hlt
    · have := hlate j₀ hj₀
      omega
  · generalize hasked : Request.claim id proposed o = asked at hnew
    cases hnew with
    | regrant ctx id' j trigger asked' found member owner same =>
      rw [asked', Request.claim.injEq] at hasked
      rcases hasked with ⟨rfl, rfl, _⟩
      rw [same]
      have hheld := Node.held_of_find found
      refine ⟨(howners.epochs id j hheld).1, ⟨j, hheld, le_rfl⟩, fun j' hj' hlt => ?_⟩
      exact Climbs.covers_find hproper hclimb found hj' hlt
    | serve ctx r _ serves open_ stored =>
      cases serves with
      | claim id' proposed' l trigger asked' found member higher =>
        rw [asked', Request.claim.injEq] at hasked
        rcases hasked with ⟨rfl, rfl, rfl⟩
        have hlog : m'.store.log = m.store.log ++ [.takeover id proposed ctx.src] := by
          rw [stored, m.store.log_append _ open_]
        have hfind := Node.find_append found stored rfl
        rw [Record.on, if_pos higher] at hfind
        refine ⟨by omega, ⟨_, Node.held_of_find hfind, le_rfl⟩, fun j hj hlt k hk => ?_⟩
        · rw [hlog] at hj
          rcases (held_snoc _ _ _ _).mp hj with hprev | hlast
          · rcases Climbs.covers hclimb hprev with ⟨l', hl', hcov⟩
            rw [Store.find_log open_] at hl'
            have hll : l' = l := Option.some.inj (hl'.symm.trans found)
            exact hll ▸ hcov k hk
          · -- The copy the takeover leaves has the claimed epoch.
            rw [Table.find_apply_congr _ (Store.find_log open_)] at hlast
            rw [Node.find, stored] at hfind
            have hjj := Option.some.inj (hlast.symm.trans hfind)
            rw [hjj] at hlt
            exact absurd hlt (lt_irrefl _)

end Invariants

/-! ### Finalising a takeover -/

/-- Merging keeps what a grant reports. -/
theorem ClaimState.merge_covers (st : ClaimState) {state : JobState} {s k : Nat}
    (h : Covers state s k) :
    Covers (st.merge (some (some state, s))).bestState (st.merge (some (some state, s))).bestSeq
    k := by
  simp only [ClaimState.merge]
  rcases h with rfl | rfl | hle
  · -- Nothing ranks above done.
    left
    cases st.bestState <;> rfl
  · cases st.bestState with
    | done => exact Or.inl rfl
    | ready | leased | deadLetter => exact Or.inr (Or.inl rfl)
  · right
    right
    split <;> omega

/-- What the merged report covers, the record it leads to makes the copy cover. -/
theorem inherits_covers {id : JobId} {st : ClaimState} {l : Job} {k : Nat}
    (h : Covers st.bestState st.bestSeq k) :
    (Node.inherits id st l = none → l.covers k) ∧
      ∀ r, Node.inherits id st l = some r → (r.on l).covers k := by
  by_cases hterm : l.terminal = true
  · -- A copy that is over stays so.
    have hcov : l.covers k := Job.covers_of_terminal hterm k
    refine ⟨fun _ => hcov, fun r hr => Record.on_covers r l (inherits_spec hr).2 ?_ k hcov⟩
    intro _ _ _ _ _ hact
    exact absurd (hterm.symm.trans hact) (by simp)
  · have hact : l.state ≠ .done ∧ l.state ≠ .deadLetter := by simpa [Job.terminal] using hterm
    unfold Node.inherits
    by_cases hdone : st.bestState = .done
    · rw [if_pos ⟨hdone, hact.1⟩]
      refine ⟨by simp, fun r hr => ?_⟩
      cases hr
      exact Or.inl (Record.on_done_self id l.epoch st.bestSeq l le_rfl)
    rw [if_neg (by simp [hdone])]
    by_cases hpark : st.bestState = .deadLetter
    · rw [if_pos ⟨hpark, hact⟩]
      refine ⟨by simp, fun r hr => ?_⟩
      cases hr
      rw [Record.on, if_pos ⟨le_rfl, hact.1⟩]
      exact Or.inr (Or.inl rfl)
    rw [if_neg (by simp [hpark])]
    -- What is left is a number, which the inherited lease or the copy has reached.
    have hle : k ≤ st.bestSeq := (h.resolve_left hdone).resolve_left hpark
    split
    case isTrue =>
      refine ⟨by simp, fun r hr => ?_⟩
      cases hr
      rw [Record.on, if_pos ⟨le_rfl, hact⟩]
      refine Or.inr (Or.inr ?_)
      simp only
      split <;> omega
    case isFalse hno =>
      refine ⟨fun _ => Or.inr (Or.inr ?_), by simp⟩
      by_contra hlt
      exact hno ⟨Or.inr (by omega), Or.inr (by omega)⟩

/-- The copy a takeover ends with has the epoch of the claim's copy and covers what
    that covered; where the append works it covers what was reported as well. -/
theorem finalized_covers {m m' : Node} {id : JobId} {st : ClaimState} {l j : Job}
    (found : m.find id = some l) (none_ : Node.inherits id st l = none → m'.store = m.store)
    (some_ : ∀ r, Node.inherits id st l = some r → Attempt m.store r m'.store)
    (after : m'.store.table.find id = some j) :
    j.epoch = l.epoch ∧ (∀ k, l.covers k → j.covers k) ∧
      (m'.store.failed = false → ∀ k, Covers st.bestState st.bestSeq k → j.covers k) := by
  -- Where the table stays as it is, so does the copy.
  have hsame : m'.store.table = m.store.table → j = l := by
    intro htable
    rw [htable] at after
    exact Option.some.inj (after.symm.trans found)
  cases hinh : Node.inherits id st l with
  | none =>
    have hjl := hsame (by rw [none_ hinh])
    rw [hjl]
    exact ⟨rfl, fun _ h => h, fun _ k hk => (inherits_covers hk).1 hinh⟩
  | some r =>
    have hspec := inherits_spec hinh
    have hon : m'.store.table = m.store.table.apply r → j = r.on l := by
      intro htable
      have hfind := find_apply_of_some r (show m.store.table.find id = some l from found)
      rw [if_pos hspec.1, ← htable] at hfind
      exact Option.some.inj (after.symm.trans hfind)
    refine ⟨?_, ?_, fun hopen k hk => ?_⟩
    · rcases (some_ r hinh).table_cases with heq | heq
      · rw [hsame heq]
      · rw [hon heq]
        exact (Record.on_epoch_cases l (inherits_fence hinh).1).elim (fun h => h) (fun h => h)
    · intro k hk
      rcases (some_ r hinh).table_cases with heq | heq
      · rw [hsame heq]
        exact hk
      · rw [hon heq]
        refine Record.on_covers r l hspec.2 ?_ k hk
        rintro id' epoch s worker rfl _ _
        exact inherits_lease_le hinh
    · generalize hs : m'.store = s' at *
      cases some_ r hinh with
      | durable =>
        rw [hon rfl]
        exact (inherits_covers hk).2 r hinh
      | lost | kept => cases hopen
      | refused failed => exact absurd (hopen.symm.trans failed) (by simp)

/-- A grant that finds the log in order and the disk working leaves the log in
    order. -/
theorem onClaimReply_open (n : Node) (id : JobId) (dst : Endpoint) (body : Reply)
    (hopen : n.store.failed = false) (hdisk : n.sched.disk.headD .durable = .durable) :
    (n.onClaimReply id dst kCreated body).store.failed = false := by
  have hcommit : ∀ (n : Node) (r : Record), n.store.failed = false →
      n.sched.disk.headD .durable = .durable → (n.commit r).1.store.failed = false := by
    intro n r hopen hdisk
    simp only [Node.commit, Store.commit, hopen, hdisk, Bool.false_eq_true, if_false]
    exact hopen
  have hinherit : ∀ (n : Node) (st : ClaimState) (l : Job), n.store.failed = false →
      n.sched.disk.headD .durable = .durable → (n.inherit id st l).store.failed = false := by
    intro n st l hopen hdisk
    unfold Node.inherit
    cases hinh : Node.inherits id st l with
    | none => simp only; split <;> exact hopen
    | some r =>
      simp only
      split <;> exact hcommit n r hopen hdisk
  have hactivate : ∀ n : Node, (n.activate id).store = n.store := by
    intro n
    unfold Node.activate
    split
    · rfl
    · simp only [Node.emit]
      split
      · rfl
      · split <;> rfl
  have hfinal : ∀ n : Node, n.store.failed = false → n.sched.disk.headD .durable = .durable →
      (n.finalizeTakeover id).store.failed = false := by
    intro n hopen hdisk
    unfold Node.finalizeTakeover
    split
    · exact hopen
    · simp only
      split
      · exact hopen
      · split
        · exact hopen
        · rw [hactivate]
          exact hinherit _ _ _ hopen hdisk
  unfold Node.onClaimReply
  split
  · exact hopen
  · rw [if_pos rfl]
    unfold Node.onClaimGrant
    simp only
    split_ifs
    · exact hfinal _ hopen hdisk
    · exact hopen

/-- So does the step that delivers it. -/
theorem step_grant_open {c c' : Cluster} {a : Act} {e : Endpoint} {t : Trigger} {id : JobId}
    {dst : Endpoint} {state : JobState} {s : Nat} (hK : AppendsGrants c a)
    (hstep : c.step a = some c') (ht : c.target a = some (e, t))
    (h : Answers t (c.node e) (.claim id dst) kCreated (.claimInfo state s)) :
    (c'.node e).store.failed = false := by
  rcases hK (e, t) ht (by rw [h.grants]; rfl) with ⟨hopen, hdisk⟩
  rw [step_react hstep ht]
  rcases h with ⟨src, dst', boot, reqId, asked, call, rfl, hcall, hk⟩
  simp only [Node.react, Node.receive, Node.finishCall]
  rw [show ({ c.node e with sched := choices a } : Node).calls = (c.node e).calls from rfl, hcall]
  simp only [hk, Node.runCont]
  exact onClaimReply_open _ id dst _ hopen hdisk

/-- A log that has stopped stays so until a restart. -/
theorem Path.failed_mono {t : Trigger} {m₀ m m' : Node} (h : Path (Move t m₀) m m')
    (ht : ∀ boot, t ≠ .input (.restart boot)) (hf : m.store.failed = true) :
    m'.store.failed = true :=
  h.keeps (P := fun n => n.store.failed = true)
    (fun _ _ hmove hs => (hmove.failed_mono hs).resolve_right (fun ⟨boot, hb⟩ => ht boot hb)) hf

/-- With one pinned member, whoever is pinned is the same. -/
theorem pinned_alone {r : ReplicaSet} {p q : Endpoint} (hlen : r.pinned.length ≤ 1)
    (hp : p ∈ r.pinned) (hq : q ∈ r.pinned) : p = q := by
  rcases List.mem_iff_getElem.mp hp with ⟨i, hi, rfl⟩
  rcases List.mem_iff_getElem.mp hq with ⟨k, hk, rfl⟩
  have hik : i = k := by omega
  subst hik
  rfl

/-- A member that has no peers is the only pinned one. -/
theorem pinned_of_peers_nil {j : Job} {me x : Endpoint} (hp : j.peers me = [])
    (hx : x ∈ j.replicas.pinned) : x = me := by
  by_contra hne
  rcases mem_peers_of_pinned hx hne with ⟨s, hs⟩
  rw [hp] at hs
  cases hs

/-- In every run that meets the conditions, a takeover that is finalised at an epoch
    above that of a granted lease leaves a copy that is over or has at least the
    lease's sequence number. -/
theorem takeover_inherits (d : Deployment) (acts : List Act) (a : Act) (c c' : Cluster)
    (hrun : d.init.exec acts = some c) (hstep : c.step a = some c')
    (hK : Run.Meets Cluster.step (fun c a => Allows Inheritable c a ∧ AppendsGrants c a) d.init
      (acts ++ [a]))
    (p q : Endpoint) (r : Record) (grant : LeaseGrant) (at_ : Time) (new : List Event) (copy : Job)
    (hgrant : .granted r grant at_ ∈ (c.node p).events)
    (hnew : (c'.node q).events = new ++ (c.node q).events) (hfin : .finalized copy ∈ new)
    (hid : copy.id = grant.id) (hlt : grant.epoch < copy.epoch) :
    copy.state = .done ∨ copy.state = .deadLetter ∨ grant.leaseSeq ≤ copy.leaseSeq := by
  rcases (Run.meets_append _ _ _ _ _ hrun).mp hK with ⟨hpre, ⟨hallow, hdisk⟩, _⟩
  have hreach : Reach Inheritable d c :=
    Reach.of_run hrun (Run.meets_mono (fun _ _ h => h.1) _ _ hpre)
  have hsane := sane.reach hreach
  have hId : ∀ c e t, Inheritable c e t → Inheritable c e t := fun _ _ _ h => h
  rcases hreach.step_reports hallow hstep hnew hfin with
    ⟨t, m₁, m₂, htarget, hin₁, hmove, hrep, hrest⟩
  cases hrep with
  | idle _ h => cases h
  | finalize id st l _ standing ripe found owned none_ some_ after =>
    rcases finalized_covers found none_ some_ after with ⟨hepoch, hown, hreported⟩
    have hcopy : id = grant.id := (m₂.store.find_id after).symm.trans hid
    subst hcopy
    rcases ((leases hId).reach hreach p).granted r grant at_ hgrant with ⟨hheard, hother⟩
    rw [hsane.names] at hheard hother
    have hgrow := hin₁.grows
    have hpinned := held_pinned.inside hin₁
    have howners := owners.inside hin₁ q
    have hl : Held (Function.update c.node q m₁ q).store.log grant.id l := by
      rw [Function.update_self]
      exact Node.held_of_find found
    have hpin : ∀ x, Heard c.node x grant.id grant.epoch grant.leaseSeq → x ∈ l.replicas.pinned :=
      fun x ⟨j, hj, _⟩ => hpinned x q grant.id j l (hj.mono (hgrow x).log) hl
    -- If this node has heard of the lease, so has its copy.
    have hself : Heard c.node q grant.id grant.epoch grant.leaseSeq →
        copy.covers grant.leaseSeq := by
      rintro ⟨j, hj, hje, hcov⟩
      have hproper := (copies.inside hin₁ q).proper
      have hclimb := (climbs hId).inside hin₁ q
      have hj' := hj.mono (hgrow q).log
      rw [Function.update_self] at hproper hclimb hj'
      exact hown _ (Climbs.covers_find hproper hclimb found hj' (by omega) _ hcov)
    rcases hother with ⟨x, hxp, hx⟩ | ⟨j, hj, hpeers⟩
    · cases ripe with
      | alone l' found' hstate hseq active none' =>
        -- No grant was needed, so there is no second member.
        rw [Function.update_self] at howners
        rcases howners.needed grant.id st standing with ⟨j, hj, hneed⟩
        have hsame := ((sane.inside hin₁).same hl (by rw [Function.update_self]; exact hj)).replicas
        have hlen : l.replicas.pinned.length ≤ 1 := by
          rw [hsame]
          omega
        exact absurd (pinned_alone hlen (hpin x hx) (hpin p hheard)) hxp
      | granted dst body st₀ bit answers standing₀ merged enough first =>
        have hK₁ := hin₁.allowed
        rcases hin₁.grant_stands hK₁.1 hK₁.2.2.2.2.1 answers standing₀ with
          ⟨state, s, rfl, hdst, boot, reqId, hp⟩
        rcases (told hId).reach hreach dst q boot reqId grant.id st₀.proposed q state s
          (by rw [hsane.names]; exact hp) with ⟨hpos, ⟨j, hj, _⟩, hall⟩
        -- The copy is not ahead of the claim, and the lease is behind the copy.
        have hnewest : l.epoch ≤ st₀.proposed := by
          rw [Function.update_self] at howners hl
          have hprop : st.proposed = st₀.proposed := by
            rw [merged]
            exact (st₀.merged_kept bit _).1
          rw [← hprop] at hpos ⊢
          exact howners.newest grant.id st standing hpos l hl owned
        have hin_pinned : ∀ {z}, z ∈ l.replicas.pinned → z ∈ l.replicas.toList :=
          fun h => (List.mem_filter.mp h).1
        rcases pairs_meet (hin_pinned (hpin p hheard)) (hin_pinned (hpin x hx))
          (hin_pinned (hpinned q q grant.id l l hl hl))
          (hin_pinned (hpinned dst q grant.id j l (hj.mono (hgrow dst).log) hl)) hxp hdst with
          ⟨z, hzp, hzq⟩
        have hz : Heard c.node z grant.id grant.epoch grant.leaseSeq := by
          rcases hzp with rfl | rfl <;> assumption
        rcases hzq with rfl | rfl
        · exact hself hz
        · -- The granting member has reported the lease, and the report is inherited.
          rcases hz with ⟨j', hj', hje', hcov⟩
          have hinfo := hall j' hj' (by omega) _ hcov
          have hopen : m₂.store.failed = false := by
            have hend := step_grant_open hdisk hstep htarget answers
            by_contra hfailed
            rw [Bool.not_eq_false] at hfailed
            rcases answers with ⟨src, dst', boot', reqId', asked', call, rfl, _⟩
            have hlate := Path.failed_mono hrest (by simp) hfailed
            exact absurd (hend.symm.trans hlate) (by simp)
          refine hreported hopen _ ?_
          rw [merged]
          exact (st₀.count bit).merge_covers hinfo
    · -- The job has one pinned member, this node.
      have hj' := hj.mono (hgrow p).log
      have hqp : q = p := pinned_of_peers_nil hpeers (hpinned q p grant.id l j hl hj')
      subst hqp
      exact hself hheard

namespace Trio

/-- `a` grants lease 1 with the confirmation of `c`; then `b`, which has not heard of
    it, claims the job. -/
def firstLease : List Act :=
  unleased ++
    [.does a (.lease 7), .takes a 3, .takes c 1, .does b (.view [c]), .does b (.peerDead a),
      .takes b 1]

/-- What the worker was handed with lease 1. -/
def firstGrant : LeaseGrant :=
  { secondGrant with leaseSeq := 1, attempt := 1 }

end Trio

/-- The conditions are met by a run in which the grant of `c` tells `b` of the
    lease. -/
theorem takeover_inherits_firstLease : ∃ c c', Trio.cluster.init.exec Trio.firstLease = some c ∧
    c.step (.takes Trio.c 2) = some c' ∧
    Run.Meets Cluster.step (fun c a => Allows Inheritable c a ∧ AppendsGrants c a) Trio.cluster.init
      (Trio.firstLease ++ [.takes Trio.c 2]) ∧
    .granted (.lease Trio.job 1 1 7) Trio.firstGrant 0 ∈ (c.node Trio.a).events ∧
    ∃ copy, .finalized copy ∈ (c'.node Trio.b).events ∧ copy.epoch = 2 ∧
      (copy.state = .done ∨ copy.state = .deadLetter ∨ 1 ≤ copy.leaseSeq) := by
  have hK : Run.Meets Cluster.step (fun c a => Allows Inheritable c a ∧ AppendsGrants c a)
      Trio.cluster.init (Trio.firstLease ++ [.takes Trio.c 2]) := by decide +kernel
  have hshow : ∃ c c', Trio.cluster.init.exec Trio.firstLease = some c ∧
      c.exec [.takes Trio.c 2] = some c' ∧
      .granted (.lease Trio.job 1 1 7) Trio.firstGrant 0 ∈ (c.node Trio.a).events ∧
      ∃ copy ∈ (c'.node Trio.b).find Trio.job,
        (c'.node Trio.b).events = [.finalized copy] ++ (c.node Trio.b).events ∧
        copy.id = Trio.job ∧ copy.epoch = 2 := run_turns (by decide +kernel)
  rcases hshow with ⟨c, c', hc, hc', hgrant, copy, _, hev, hid, he⟩
  rcases Option.bind_eq_some_iff.mp hc' with ⟨c₁, hstep, hc₁⟩
  cases hc₁
  refine ⟨c, c', hc, hstep, hK, hgrant, copy, ?_, he, ?_⟩
  · rw [hev]
    exact List.mem_append_left _ (List.mem_singleton.mpr rfl)
  · exact takeover_inherits _ _ _ c c' hc hstep hK Trio.a Trio.b _ Trio.firstGrant 0
      [.finalized copy] copy hgrant hev (List.mem_singleton.mpr rfl) hid (by rw [he]; decide)

end Tautq
