import Tautq.Safety.Runs
import Tautq.Theory.Owners

/-!
# One Committing Owner per Epoch

An owner commits a lease or a completion when another member has applied it,
and a member applies records only from the node its copy names as the owner.
Two nodes that seized the same epoch are told apart by that check alone. It
fails when a member adopts a full copy: the merge order does not compare the
owner, so the copy of one claimant replaces the copy of the other within one
epoch, and the member then serves both (`two_committers`).

The conditions are that no copy is replaced within its epoch by one of another
owner, that a record of a later epoch is not absorbed by a copy it cannot
change, and that responses are matched. Then the owner is a function of the
epoch over everything a node has ever held, and two members that confirm
records of one epoch to two owners would need four members (`pairs_meet`).

## Main definitions

* `Record.commitsAt`: A lease or a completion of a job at an epoch.
* `OwnersKept`: The conditions.

## Theorems

* `two_committers`: Two owners commit at one epoch.
* `owner_unique`: The owner is a function of the epoch, at every node.
* `one_committer`: Under the conditions one owner commits at an epoch.
-/

namespace Tautq

open Status Cluster

/-- A lease or a completion of a job at an epoch. -/
def Record.commitsAt (id : JobId) (epoch : Nat) : Record → Prop
  | .lease id' epoch' _ _ => id' = id ∧ epoch' = epoch
  | .done id' epoch' _ => id' = id ∧ epoch' = epoch
  | _ => False

/-- No copy is replaced within its epoch by one of another owner. -/
def KeepsOwner : Cond := fun c e t =>
  ∀ j ∈ t.brings (c.node e), ∀ l ∈ (c.node e).find j.id, jobAdvances l j = true →
    j.epoch = l.epoch → j.owner = l.owner

/-- No lease or completion of a later epoch meets a copy that it leaves as it is. -/
def Unabsorbed : Cond := fun c e t =>
  match t with
  | .packet (.request _ _ _ _ (.apply (.lease id epoch _ _))) =>
    ∀ l ∈ (c.node e).find id, l.epoch < epoch → l.terminal = false
  | .packet (.request _ _ _ _ (.apply (.done id epoch _))) =>
    ∀ l ∈ (c.node e).find id, l.epoch < epoch → l.state ≠ .done
  | _ => True

/-- Responses are matched, owners change with the epoch only, and records of a
    later epoch are applied. -/
def OwnersKept : Cond := fun c e t =>
  Matched c e t ∧ KeepsOwner c e t ∧ Unabsorbed c e t

instance (c : Cluster) (e : Endpoint) (t : Trigger) : Decidable (KeepsOwner c e t) :=
  inferInstanceAs (Decidable (∀ j ∈ t.brings (c.node e), ∀ l ∈ (c.node e).find j.id,
    jobAdvances l j = true → j.epoch = l.epoch → j.owner = l.owner))

instance (c : Cluster) (e : Endpoint) (t : Trigger) : Decidable (Unabsorbed c e t) := by
  unfold Unabsorbed
  split <;> infer_instance

instance (c : Cluster) (e : Endpoint) (t : Trigger) : Decidable (OwnersKept c e t) :=
  inferInstanceAs (Decidable (Matched c e t ∧ KeepsOwner c e t ∧ Unabsorbed c e t))

/-! ### Two owners at one epoch -/

namespace Trio

/-- `b` and `c` both seize epoch 2, and `a` grants it to `b` and applies a lease of `b`. -/
def rivals : List Act :=
  unleased ++
    -- `c` sees nobody, seizes the job, and restarts on that.
    [.does c (.view []), .does c (.peerDead a), .does c (.restart 2), .does c (.view [a, b]),
    -- `b` seizes it as well, asks `a`, and leases it.
      .does b (.view [c]), .does b (.peerDead a), .does b (.view [a, c]), .does b (.advance 1000),
      .does b .tick, .takes b 2, .takes a 2, .does b (.lease 7), .takes b 4, .takes a 3]

/-- Of the two owners at epoch 2, `a` adopts a copy of `c` and applies a lease of `c` as well. -/
def twoOwners : List Act :=
  rivals ++
    -- The first lease of `c` finds no quorum in time; the second is ahead of the lease of `b`.
    [.does c (.lease 8), .does c (.advance 1000), .does c .tick, .does c (.advance 1500),
      .does c (.lease 8), .does c (.advance 500), .does c .tick,
    -- The repair copy makes `c` the owner at `a`, which then applies its lease.
      .takes c 7, .takes c 5, .takes a 5]

end Trio

/-- `a` confirms a lease of `b` and a lease of `c`, both at epoch 2. -/
theorem two_committers : ∃ c, Trio.cluster.init.exec Trio.twoOwners = some c ∧
    .applyAcked Trio.a (.lease Trio.job 2 1 7) ∈ (c.node Trio.b).events ∧
    .applyAcked Trio.a (.lease Trio.job 2 2 8) ∈ (c.node Trio.c).events :=
  run_shows (by decide +kernel)

/-! ### The owner as a function of the epoch -/

/-- A record that leaves the epoch of a copy leaves its owner, unless it is a full
    copy that replaces it. -/
theorem Record.on_owner_of_epoch (r : Record) (l : Job) (hr : ∀ b, r ≠ .submit b)
    (hfull : ∀ j, r = .replicate j → jobAdvances l j = true → j.epoch = l.epoch →
      j.owner = l.owner)
    (he : (r.on l).epoch = l.epoch) : (r.on l).owner = l.owner := by
  cases r with
  | submit b => exact absurd rfl (hr b)
  | replicate j =>
    simp only [on] at he ⊢
    by_cases hadv : jobAdvances l j = true
    · rw [if_pos hadv] at he ⊢
      exact hfull j rfl hadv he
    · rw [if_neg hadv]
  | lease | done | expire | deadLetter =>
    simp only [on]
    split <;> rfl
  | takeover id epoch o =>
    simp only [on] at he ⊢
    by_cases hlt : l.epoch < epoch
    · -- A takeover that has an effect raises the epoch.
      rw [if_pos hlt] at he
      exact absurd he (by simp only; omega)
    · rw [if_neg hlt]

section Invariants

variable {K : Cond} {d : Deployment} {c : Cluster} {e : Endpoint} {t : Trigger} {m : Node}

/-- Over all copies a node has held, the owner is a function of the epoch. -/
theorem owner_unique (hK : ∀ c e t, K c e t → KeepsOwner c e t) :
    Always K d (fun w => ∀ e, ∀ id tb tb', Visited Table.apply {} (w e).store.log tb →
      Visited Table.apply {} (w e).store.log tb' → ∀ epoch,
        (tb.find id).map Job.epoch = some epoch → (tb'.find id).map Job.epoch = some epoch →
          (tb.find id).map Job.owner = (tb'.find id).map Job.owner) := by
  refine always_of_node (Q := fun _ n => ∀ id tb tb', Visited Table.apply {} n.store.log tb →
      Visited Table.apply {} n.store.log tb' → ∀ epoch,
        (tb.find id).map Job.epoch = some epoch → (tb'.find id).map Job.epoch = some epoch →
          (tb.find id).map Job.owner = (tb'.find id).map Job.owner) (fun _ h => h) ?_
    (fun {c e t m m'} hin _ hmid _ hmove id => ?_)
  · rintro e id tb tb' ⟨v, hv, rfl⟩ _ epoch he
    rw [List.prefix_nil.mp hv] at he
    cases he
  have hm := hmid id
  have hproper := (copies.inside hin e).proper
  have hproper' := (copies.inside (hin.tail hmove) e).proper
  rw [Function.update_self] at hproper hproper'
  rcases hmove.log_cases with heq | ⟨r, hw, open_, heq⟩
  · rw [heq]
    exact hm
  rw [heq] at hproper' ⊢
  -- The epoch ranks the tables the log has been through, and the owner is to agree.
  refine Visited.agree_snoc (fun tb : Table => (tb.find id).map Job.epoch)
    (fun tb : Table => (tb.find id).map Job.owner) r hm ?_ ?_
  · intro tb htb epoch he
    rcases Option.map_eq_some_iff.mp he with ⟨j, hj, rfl⟩
    rcases hproper.epoch_le ⟨tb, htb, hj⟩ with ⟨l, hl, hle⟩
    exact ⟨l.epoch, by change ((replay m.store.log).find id).map Job.epoch = _; rw [hl]; rfl, hle⟩
  · intro epoch he
    rcases Option.map_eq_some_iff.mp he with ⟨l, hl, rfl⟩
    change (replay m.store.log).find id = some l at hl
    have hafter := find_apply_of_some r hl
    by_cases hid : r.jobId = id
    · rw [if_pos hid] at hafter
      have hsub : ∀ b, r ≠ .submit b := by
        rintro b rfl
        have hnone := hproper' m.store.log b List.prefix_rfl
        rw [show b.id = id from hid, hl] at hnone
        cases hnone
      refine ⟨(r.on l).epoch, ?_, r.epoch_le_on l hsub, fun hsame => ?_⟩
      · change (((replay m.store.log).apply r).find id).map Job.epoch = _
        rw [hafter]
        rfl
      · change (((replay m.store.log).apply r).find id).map Job.owner =
          ((replay m.store.log).find id).map Job.owner
        rw [hafter, hl, Option.map_some, Option.map_some, Option.some.injEq]
        refine r.on_owner_of_epoch l hsub ?_ hsame.symm
        rintro j rfl hadv hje
        rcases hw.brings with ⟨hbrings, hfirst⟩
        refine hK c e t hin.allowed j hbrings l ?_ hadv hje
        rw [Store.find_log open_, hfirst] at hl
        exact (show j.id = id from hid) ▸ hl
    · rw [if_neg hid] at hafter
      refine ⟨l.epoch, ?_, le_rfl, fun _ => ?_⟩
      · change (((replay m.store.log).apply r).find id).map Job.epoch = _
        rw [hafter]
        rfl
      · change (((replay m.store.log).apply r).find id).map Job.owner =
          ((replay m.store.log).find id).map Job.owner
        rw [hafter, hl]

theorem Owned.unique (hK : ∀ c e t, K c e t → KeepsOwner c e t) (hreach : Reach K d c)
    {x o o' : Endpoint} {id : JobId} {epoch : Nat} (h : Owned c.node x id epoch o)
    (h' : Owned c.node x id epoch o') : o = o' := by
  rcases h with ⟨j, ⟨tb, htb, hj⟩, he, ho⟩
  rcases h' with ⟨j', ⟨tb', htb', hj'⟩, he', ho'⟩
  have hagree := (owner_unique hK).reach hreach x id tb tb' htb htb' epoch (by rw [hj, ← he]; rfl)
    (by rw [hj', ← he']; rfl)
  rw [hj, hj', Option.map_some, Option.map_some, Option.some.injEq] at hagree
  rw [← ho, ← ho', hagree]

/-! ### Who confirms a record -/

theorem Record.commitsAt.spec {r : Record} {id : JobId} {epoch : Nat} (h : r.commitsAt id epoch) :
    r.jobId = id ∧ r.fence = some epoch ∧ r.full = none ∧ r.isTakeover = false := by
  cases r with
  | lease | done => exact ⟨h.1, congrArg some h.2, rfl, rfl⟩
  | submit | replicate | expire | deadLetter | takeover => cases h

/-- What a node has confirmed, and what it was confirmed. -/
structure Votes (w : World) (n : Node) : Prop where
  confirmed : ∀ dst boot reqId r body id epoch, r.commitsAt id epoch →
    .response n.self dst boot reqId (.apply r) kCreated body ∈ n.outbox →
      Owned w n.self id epoch dst
  told : ∀ x r id epoch, r.commitsAt id epoch → .applyAcked x r ∈ n.events →
    x ≠ n.self ∧ Owned w x id epoch n.self ∧ Owned w n.self id epoch n.self

theorem Votes.mono {w w' : World} {n : Node} (hg : w.Grows w') (h : Votes w n) : Votes w' n where
  confirmed dst boot reqId r body id epoch hr hp :=
    (h.confirmed dst boot reqId r body id epoch hr hp).grows hg
  told x r id epoch hr hev := by
    rcases h.told x r id epoch hr hev with ⟨hne, hx, hn⟩
    exact ⟨hne, hx.grows hg, hn.grows hg⟩

/-- A confirmation given right now is for a copy of that epoch and owner. -/
theorem Inside.serves_owned (hK : Unabsorbed c e t) {m' : Node} (hin : Inside K d c e t m)
    {ctx : ReqCtx} {r r' : Record} {body : Reply} {id : JobId} {epoch : Nat}
    (h : Serves t (c.node e) m ctx r' body) (hasked : ctx.asked = .apply r)
    (hr : r.commitsAt id epoch) (hs : m'.store = m.store.append r') :
    Owned (Function.update c.node e m') e id epoch ctx.src := by
  cases h with
  | copy j trigger asked => rw [asked] at hasked; cases hasked
  | claim id' proposed l trigger asked => rw [asked] at hasked; cases hasked
  | apply _ epoch' l trigger asked fence found unfenced owner first =>
    have hrr : r' = r := Request.apply.inj (asked.symm.trans hasked)
    subst hrr
    have hfind := Node.find_of_store first found
    rcases Trigger.eq_of_ctx trigger with ⟨dst, rfl⟩
    rw [asked] at hK
    rcases hr.spec with ⟨hid, hfence, hfull, hnot⟩
    have he : epoch = epoch' := Option.some.inj (hfence.symm.trans fence)
    subst he
    -- A record of a later epoch is not absorbed.
    have hepoch : (r'.on l).epoch = epoch := by
      rcases unfenced.eq_or_lt with heq | hlt
      · exact (Record.on_epoch_cases l fence).elim (fun h => h.trans heq) (fun h => h)
      · cases r' with
        | lease id' epoch₁ leaseSeq worker =>
          have hlt' : l.epoch < epoch₁ := hr.2 ▸ hlt
          have hterm := hK l hfind hlt'
          simp only [Job.terminal, Bool.or_eq_false_iff, decide_eq_false_iff_not] at hterm
          rw [Record.on, if_pos ⟨hlt'.le, hterm⟩]
          exact hr.2
        | done id' epoch₁ leaseSeq =>
          have hlt' : l.epoch < epoch₁ := hr.2 ▸ hlt
          rw [Record.on, if_pos ⟨hlt'.le, hK l hfind hlt'⟩]
          exact hr.2
        | submit | replicate | expire | deadLetter | takeover => cases hr
    refine ⟨r'.on l, ?_, hepoch, ?_⟩
    · rw [Function.update_self]
      exact Node.held_of_find (Node.find_append (hid ▸ found) hs hid)
    · rw [r'.on_owner_of_not_takeover l hfull hnot]
      exact (owner.resolve_right (by rw [hnot]; simp)).symm

theorem votes (hK : ∀ c e t, K c e t → OwnersKept c e t) :
    Always K d (fun w => ∀ e, Votes w (w e)) := by
  refine always_of_node (fun hg => Votes.mono hg)
    (fun e => by constructor <;> simp [Deployment.init])
    (fun {c e t m m'} hin hc hm hgrow hmove => ?_)
  have hwire := wire.inside hin e
  have hnames := names.reach hin.reach
  have hme := hin.self_eq
  have hself := hmove.self_eq.1
  rw [Function.update_self] at hwire
  refine ⟨?_, ?_⟩
  · intro dst boot reqId r body id epoch hr hp
    rw [hself] at hp ⊢
    rcases hmove.response_cases hp with hold | hnew
    · exact (hm.confirmed dst boot reqId r body id epoch hr hold).grows hgrow
    · rcases hnew.confirms hwire (Or.inr ⟨r, rfl⟩) with ⟨ctx, r', rfl, ha, serves, stored⟩
      rw [hme]
      exact hin.serves_owned (hK c e t hin.allowed).2.2 serves ha hr stored
  · intro x r id epoch hr hev
    rw [hself]
    rcases hmove.event_cases hev with hold | hnew
    · rcases hm.told x r id epoch hr hold with ⟨hne, hx, hn⟩
      exact ⟨hne, hx.grows hgrow, hn.grows hgrow⟩
    · cases hnew with
      | idle _ h => cases h
      | applyAcked id' slot _ _ q body answers =>
        rcases hin.applied (hK c e t hin.allowed).1 answers with ⟨other, ⟨boot, reqId, hp⟩, hcom⟩
        have hafter := (hin.tail hmove).grows
        have hx := (hc x).confirmed e boot reqId r body id epoch hr
          (by rw [(hnames x).1]; exact hp)
        rw [(hnames x).1] at hx
        -- This node has appended the record before it asked for it.
        have hown := Committed.owned (hnames e).1 (hr.spec.1 ▸ hcom) hr.spec.2.1
        rw [hme]
        exact ⟨other, hx.grows hafter, hown.grows hafter⟩

end Invariants

/-- Two pairs of pinned members have a member in common. -/
theorem pairs_meet {r : ReplicaSet} {p x q y : Endpoint} (hp : p ∈ r.toList) (hx : x ∈ r.toList)
    (hq : q ∈ r.toList) (hy : y ∈ r.toList) (hpx : x ≠ p) (hqy : y ≠ q) :
    ∃ z, (z = p ∨ z = x) ∧ (z = q ∨ z = y) := by
  have hsub : ∀ {a b}, a ∈ r.toList → b ∈ r.toList →
      ({a, b} : Finset Endpoint) ⊆ r.toList.toFinset := by
    intro a b ha hb z hz
    rcases Finset.mem_insert.mp hz with rfl | hz
    · exact List.mem_toFinset.mpr ha
    · rw [Finset.mem_singleton.mp hz]
      exact List.mem_toFinset.mpr hb
  have hcard : r.toList.toFinset.card < ({p, x} : Finset Endpoint).card +
      ({q, y} : Finset Endpoint).card := by
    have hle : r.toList.toFinset.card ≤ 3 := r.toList.toFinset_card_le
    rw [Finset.card_pair hpx.symm, Finset.card_pair hqy.symm]
    omega
  rcases Finset.inter_nonempty_of_card_lt_card_add_card (hsub hp hx) (hsub hq hy) hcard with ⟨z, hz⟩
  rcases Finset.mem_inter.mp hz with ⟨h₁, h₂⟩
  simp only [Finset.mem_insert, Finset.mem_singleton] at h₁ h₂
  exact ⟨z, h₁, h₂⟩

/-- Whoever has held a copy of a job is pinned, and all copies agree on who is. -/
theorem Owned.pinned {w : World} (hsane : Sane w) {x o : Endpoint} {id : JobId}
    {epoch : Nat} (h : Owned w x id epoch o) :
    ∃ r : ReplicaSet, ∀ z epoch₁ o₁, Owned w z id epoch₁ o₁ → z ∈ r.toList := by
  rcases h with ⟨j, hj, _⟩
  refine ⟨j.replicas, fun z epoch₁ o₁ hz => ?_⟩
  rcases hz with ⟨j', hj', _⟩
  rw [(hsane.same hj hj').replicas]
  exact (hsane.held hj').2

/-- Two owners at one epoch that another member has each recorded as its owner are
    one and the same. -/
theorem owners_agree {K : Cond} {d : Deployment} {c : Cluster}
    (hK : ∀ c e t, K c e t → KeepsOwner c e t) (hreach : Reach K d c) {id : JobId} {epoch : Nat}
    {p q x y : Endpoint} (hop : Owned c.node p id epoch p) (hox : Owned c.node x id epoch p)
    (hxp : x ≠ p) (hoq : Owned c.node q id epoch q) (hoy : Owned c.node y id epoch q)
    (hyq : y ≠ q) : p = q := by
  -- A member of both pairs has held the epoch under both owners.
  rcases Owned.pinned (sane.reach hreach) hop with ⟨rs, hpin⟩
  rcases pairs_meet (hpin _ _ _ hop) (hpin _ _ _ hox) (hpin _ _ _ hoq) (hpin _ _ _ hoy) hxp hyq with
    ⟨z, hzp, hzq⟩
  have hzp' : Owned c.node z id epoch p := by rcases hzp with rfl | rfl <;> assumption
  have hzq' : Owned c.node z id epoch q := by rcases hzq with rfl | rfl <;> assumption
  exact Owned.unique hK hreach hzp' hzq'

/-- In every run that meets the conditions, the nodes that are confirmed a lease or
    a completion of a job at an epoch are one and the same. -/
theorem one_committer (d : Deployment) (acts : List Act) (c : Cluster)
    (hrun : d.init.exec acts = some c) (hK : d.init.Meets OwnersKept acts) (id : JobId)
    (epoch : Nat) (p q x y : Endpoint) (r r' : Record) (hr : r.commitsAt id epoch)
    (hr' : r'.commitsAt id epoch) (hp : .applyAcked x r ∈ (c.node p).events)
    (hq : .applyAcked y r' ∈ (c.node q).events) : p = q := by
  have hreach := Reach.of_run hrun hK
  have hsane := sane.reach hreach
  have hvotes := (votes (d := d) (fun _ _ _ h => h)).reach hreach
  rcases (hvotes p).told x r id epoch hr hp with ⟨hxp, hox, hop⟩
  rcases (hvotes q).told y r' id epoch hr' hq with ⟨hyq, hoy, hoq⟩
  rw [hsane.names] at hxp hox hop hyq hoy hoq
  exact owners_agree (fun _ _ _ h => h.2.1) hreach hop hox hxp hoq hoy hyq

namespace Trio

/-- A takeover by `b`, which leases and completes the job with the confirmations of
    `c`. -/
def takenOver : List Act :=
  unleased ++
    [.does b (.view [c]), .does b (.peerDead a), .takes b 1, .takes c 1, .does b (.lease 7),
      .takes b 3, .takes c 2, .does b (.ack job 2 1 true), .takes b 5, .takes c 3]

end Trio

/-- The conditions are met by a run in which one owner commits a lease and a
    completion after a takeover. -/
theorem one_committer_takenOver : ∃ c, Trio.cluster.init.exec Trio.takenOver = some c ∧
    Trio.cluster.init.Meets OwnersKept Trio.takenOver ∧
    ∃ p q x y, .applyAcked x (.lease Trio.job 2 1 7) ∈ (c.node p).events ∧
      .applyAcked y (.done Trio.job 2 1) ∈ (c.node q).events ∧ p = q := by
  have hK : Trio.cluster.init.Meets OwnersKept Trio.takenOver := by decide +kernel
  have hshow : ∃ c, Trio.cluster.init.exec Trio.takenOver = some c ∧
      .applyAcked Trio.c (.lease Trio.job 2 1 7) ∈ (c.node Trio.b).events ∧
      .applyAcked Trio.c (.done Trio.job 2 1) ∈ (c.node Trio.b).events :=
        run_shows (by decide +kernel)
  rcases hshow with ⟨c, hc, hl, hd⟩
  have hone := one_committer _ _ c hc hK Trio.job 2 Trio.b Trio.b Trio.c Trio.c
    (.lease Trio.job 2 1 7) (.done Trio.job 2 1) ⟨rfl, rfl⟩ ⟨rfl, rfl⟩ hl hd
  exact ⟨c, hc, hK, Trio.b, Trio.b, Trio.c, Trio.c, hl, hd, hone⟩

end Tautq
