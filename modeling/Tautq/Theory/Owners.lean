import Tautq.Theory.Birth

/-!
# Where Epochs and Owners Come From

A node becomes the owner of a job by its own doing: it mints the job, or it
seizes the next epoch and logs that before it asks anybody. So whenever any
node holds a copy with an epoch and an owner, the owner has held the epoch
itself. Other nodes only hear of it, by a claim, a record or a full copy.

It follows that a standing claim is for the newest epoch its node has owned:
a copy of a later one could only come back from somebody who had it from this
very node.

## Main definitions

* `Owned`: A node has held a copy of a job with an epoch and an owner.
* `Owners`: What holds of a node's copies, claims and claim requests.

## Theorems

* `Inside.on_owned`: Where the epoch and the owner a record leaves come from.
* `owners`: `Owners` holds of every node at all times.
-/

namespace Tautq

open Status Cluster

/-- A node has held a copy of a job with an epoch and an owner. -/
def Owned (w : World) (x : Endpoint) (id : JobId) (epoch : Nat) (o : Endpoint) : Prop :=
  ∃ j, Held (w x).store.log id j ∧ j.epoch = epoch ∧ j.owner = o

theorem Owned.grows {w w' : World} {x o : Endpoint} {id : JobId} {epoch : Nat} (h : w.Grows w')
    (ho : Owned w x id epoch o) : Owned w' x id epoch o := by
  rcases ho with ⟨j, hj, he, hown⟩
  exact ⟨j, hj.mono (h x).log, he, hown⟩

/-- A node has held a copy with an epoch of its own. -/
def Node.HasOwned (n : Node) (id : JobId) (epoch : Nat) : Prop :=
  ∃ j, Held n.store.log id j ∧ j.epoch = epoch ∧ j.owner = n.self

/-- What holds of the epochs and owners a node has heard of, and of its claims: a
    claim is for an epoch of its own, and for the newest one. -/
structure Owners (w : World) (n : Node) : Prop where
  epochs : ∀ id j, Held n.store.log id j →
    0 < j.epoch ∧ j.epoch < 2 ^ 32 ∧ Owned w j.owner id j.epoch j.owner
  sent : ∀ dst boot reqId id proposed o,
    .request n.self dst boot reqId (.claim id proposed o) ∈ n.outbox → 0 < proposed →
      n.HasOwned id proposed
  claims : ∀ id st, n.claims.lookup id = some st → 0 < st.proposed → n.HasOwned id st.proposed
  newest : ∀ id st, n.claims.lookup id = some st → 0 < st.proposed →
    ∀ j, Held n.store.log id j → j.owner = n.self → j.epoch ≤ st.proposed
  needed : ∀ id st, n.claims.lookup id = some st → ∃ j, Held n.store.log id j ∧
    st.needed = ((j.replicas.pinned.length / 2 + 1 : Nat) : Int) - 1

theorem Owners.mono {w w' : World} {n : Node} (hg : w.Grows w') (h : Owners w n) : Owners w' n :=
  { h with
    epochs := fun id j hj => ⟨(h.epochs id j hj).1, (h.epochs id j hj).2.1,
      (h.epochs id j hj).2.2.grows hg⟩ }

/-- A fenced record leaves the epoch of a copy, or sets it to its own. -/
theorem Record.on_epoch_cases {r : Record} {epoch : Nat} (l : Job) (h : r.fence = some epoch) :
    (r.on l).epoch = l.epoch ∨ (r.on l).epoch = epoch := by
  cases r with
  | submit | replicate => cases h
  | lease | done | expire | deadLetter | takeover =>
    have he := Option.some.inj h
    simp only [on]
    split
    · exact Or.inr he
    · exact Or.inl rfl

/-- A transition that its owner has appended is of an epoch it has owned. -/
theorem Committed.owned {w : World} {x : Endpoint} {id : JobId} {epoch : Nat} {r : Record}
    (hself : (w x).self = x) (h : Committed (w x) id r) (hr : r.fence = some epoch) :
    Owned w x id epoch x := by
  rcases h with ⟨v, l, hv, hl, howner, htrans⟩
  have hheld : Held (w x).store.log id l :=
    (held_last hl).mono (((List.prefix_append v [r]).trans hv).trans (w x).store.wal_prefix_log)
  exact ⟨l, hheld, Option.some.inj (htrans.fence.symm.trans hr), howner.trans hself⟩

section Step

variable {K : Cond} {d : Deployment} {c : Cluster} {e : Endpoint} {t : Trigger} {m m' : Node}

/-- What a fenced record leaves of a copy: its epoch and owner, an epoch and owner
    the sender of the record has held, or an epoch this node is seizing. -/
theorem Inside.on_owned (hin : Inside K d c e t m) (hc : ∀ x, Owners c.node (c.node x)) {r : Record}
    {l : Job} (hw : Writes t (c.node e) m r) (hr : r.full = none) (hl : m.find r.jobId = some l) :
    ((r.on l).epoch = l.epoch ∧ (r.on l).owner = l.owner) ∨
      (∃ x, (r.on l).owner = x ∧ Owned c.node x r.jobId (r.on l).epoch x) ∨
      ((r.on l).owner = e ∧ (r.on l).epoch < 2 ^ 32 ∧ r.jobId ∉ m.claims) := by
  have hsane := sane.reach hin.reach
  -- A record at the epoch of the copy.
  have hsame : ∀ {l' : Job}, m.find r.jobId = some l' → r.fence = some l'.epoch →
      r.isTakeover = false → (r.on l).epoch = l.epoch ∧ (r.on l).owner = l.owner := by
    intro l' hl' hf ht
    have hll : l' = l := Option.some.inj (hl'.symm.trans hl)
    subst hll
    have he := Record.on_epoch_cases l' hf
    exact ⟨he.elim id id, r.on_owner_of_not_takeover l' hr ht⟩
  cases hw with
  | mint | adopt => cases hr
  | serve ctx _ body serves =>
    cases serves with
    | copy => cases hr
    | apply _ epoch l' trigger asked fence found unfenced owner =>
      have hll : l' = l := Option.some.inj (found.symm.trans hl)
      subst hll
      have hcom := hsane.applied (hin.asked trigger) asked
      have hnot : r.isTakeover = false := by
        rcases hcom with ⟨_, _, _, _, _, htrans⟩
        exact htrans.not_takeover
      have hown := r.on_owner_of_not_takeover l' hr hnot
      rcases Record.on_epoch_cases l' fence with he | he
      · exact Or.inl ⟨he, hown⟩
      · -- The sender is the owner of the copy and has held the record's epoch.
        have hsrc : ctx.src = l'.owner := owner.resolve_right (by rw [hnot]; simp)
        refine Or.inr (Or.inl ⟨ctx.src, hown.trans hsrc.symm, ?_⟩)
        rw [he]
        exact Committed.owned (hsane.names ctx.src) hcom fence
    | claim id proposed l' trigger asked found member higher =>
      have hll : l' = l := Option.some.inj (found.symm.trans hl)
      subst hll
      have hsent := hin.asked trigger
      rw [Sent, asked] at hsent
      have hown := (hc ctx.src).sent e ctx.boot ctx.reqId id proposed ctx.src
        (by rw [hsane.names]; exact hsent) (by omega)
      rcases hown with ⟨j, hj, hje, hjo⟩
      refine Or.inr (Or.inl ⟨ctx.src, ?_, j, hj, ?_, hjo.trans (hsane.names _)⟩)
      · rw [Record.on, if_pos higher]
      · rw [Record.on, if_pos higher]
        exact hje
  | begin_ id l' _ d' found owned begins =>
    have htrans := begins.transition
    exact Or.inl (hsame (by rw [htrans.jobId]; exact found) htrans.fence htrans.not_takeover)
  | unlease id l' q s epoch leaseSeq worker found => exact Or.inl (hsame found rfl rfl)
  | seize id l' found other active unclaimed =>
    by_cases hlt : l.epoch < (l'.epoch + 1) % 2 ^ 32
    · right
      right
      rw [Record.on, if_pos hlt]
      exact ⟨hin.self_eq, Nat.mod_lt _ (by decide), unclaimed⟩
    · left
      rw [Record.on, if_neg hlt]
      exact ⟨rfl, rfl⟩
  | inherit id st l' _ ripe found owned inherits =>
    have hf := inherits_fence inherits
    exact Or.inl (hsame (by rw [(inherits_spec inherits).1]; exact found) hf.1 hf.2)

/-- A full copy being written goes back to a mint just now, or its owner has held
    its epoch. -/
theorem Inside.full_owned (hin : Inside K d c e t m) (hc : ∀ x, Owners c.node (c.node x))
    {r : Record} {j : Job} (hw : Writes t (c.node e) m r) (hr : r.full = some j) :
    (∃ p, j = m.mintJob p ∧ r = .submit j) ∨
      (0 < j.epoch ∧ j.epoch < 2 ^ 32 ∧ Owned c.node j.owner j.id j.epoch j.owner) := by
  rcases hin.full_origin hw hr with hmint | ⟨_, src, _, hheld⟩
  · exact Or.inl hmint
  · exact Or.inr ((hc src).epochs j.id j hheld)

/-- While a claim stands, a copy of this node's own that turns up is not newer. -/
theorem newest_kept (hin : Inside K d c e t m) (hc : ∀ x, Owners c.node (c.node x))
    (hm : Owners (Function.update c.node e m) m) (hmove : Move t (c.node e) m m') {id : JobId}
    {st : ClaimState} (hst : m.claims.lookup id = some st) (hpos : 0 < st.proposed) (j : Job)
    (hj : Held m'.store.log id j) (ho : j.owner = m.self) : j.epoch ≤ st.proposed := by
  have hme := hin.self_eq
  -- What comes back from elsewhere was held here before.
  have hback : ∀ epoch, Owned c.node e id epoch e → epoch ≤ st.proposed := by
    rintro epoch ⟨j₀, hj₀, he, ho'⟩
    rw [← he]
    exact hm.newest id st hst hpos j₀ (hj₀.mono hin.node_grows.log) (ho'.trans hme.symm)
  have hrule := hmove.held_rule
    (P := fun id' j => id' = id → j.owner = m.self → j.epoch ≤ st.proposed)
    (fun id' j hj hid ho => hm.newest id st hst hpos j (hid ▸ hj) ho)
    (fun r j hw _ hr _ hid ho => by
      rcases hin.full_owned hc hw hr with ⟨p, _, rfl⟩ | ⟨_, _, hown⟩
      · -- A job just minted has no claim.
        rcases hm.needed id st hst with ⟨j₀, hj₀, _⟩
        exact absurd (hid ▸ hj₀) (hin.mint_unheld hw)
      · rw [ho, hme, hid] at hown
        exact hback j.epoch hown)
    (fun r l hw _ hr hl _ hid ho => by
      rcases hin.on_owned hc hw hr hl with ⟨he, hown⟩ | ⟨x, hx, hown⟩ | ⟨_, _, hun⟩
      · rw [he]
        exact hm.newest id st hst hpos l (hid ▸ Node.held_of_find hl) (hown.symm.trans ho)
      · rw [← hx, ho, hme, hid] at hown
        exact hback _ hown
      · rw [hid] at hun
        exact absurd (AList.lookup_isSome.mp (by rw [hst]; rfl)) hun)
  exact hrule id j hj rfl ho

end Step

/-- Unless the epoch wraps, the seized one is the next and the copy has it. -/
theorem find_seized {m m' : Node} {id : JobId} {l : Job} (found : m.find id = some l)
    (stored : m'.store = m.store.append (.takeover id ((l.epoch + 1) % 2 ^ 32) m.self))
    (hlt : l.epoch < 2 ^ 32) (hpos : 0 < (l.epoch + 1) % 2 ^ 32) :
    m'.find id = some { l with epoch := (l.epoch + 1) % 2 ^ 32, owner := m.self } := by
  have happ := Node.find_append found stored rfl
  rwa [Record.on, if_pos (by omega)] at happ

section Invariant

variable {K : Cond} {d : Deployment}

theorem owners : Always K d (fun w => ∀ e, Owners w (w e)) := by
  refine always_of_node (fun hg => Owners.mono hg) (fun e => ?_)
    (fun {c e t m m'} hin hc hm hgrow hmove => ?_)
  · refine ⟨fun id j hj => ?_, by simp [Deployment.init], ?_, ?_, ?_⟩
    · exact absurd hj (not_held_nil id j)
    all_goals
      intro id st hst
      cases hst
  have hproper := (copies.inside hin e).proper
  rw [Function.update_self] at hproper
  have hme := hin.self_eq
  have hself := hmove.self_eq.1
  have hafter := (hin.tail hmove).grows
  have hkeep : ∀ {id epoch}, m.HasOwned id epoch → m'.HasOwned id epoch := by
    rintro id epoch ⟨j, hj, he, ho⟩
    exact ⟨j, hj.mono hmove.log_prefix, he, ho.trans hself.symm⟩
  -- A claim that stands keeps what it says.
  have hold : ∀ {id : JobId} {st st' : ClaimState}, m.claims.lookup id = some st →
      st'.proposed = st.proposed → st'.needed = st.needed →
      (0 < st'.proposed → m'.HasOwned id st'.proposed) ∧
        (0 < st'.proposed → ∀ j, Held m'.store.log id j → j.owner = m'.self →
        j.epoch ≤ st'.proposed) ∧ ∃ j, Held m'.store.log id j ∧
          st'.needed = ((j.replicas.pinned.length / 2 + 1 : Nat) : Int) - 1 := by
    intro id st st' hst hp hn
    rw [hp, hn]
    refine ⟨fun hpos => hkeep (hm.claims id st hst hpos), fun hpos j hj ho => ?_, ?_⟩
    · exact newest_kept hin hc hm hmove hst hpos j hj (ho.trans hself)
    · rcases hm.needed id st hst with ⟨j, hj, hneed⟩
      exact ⟨j, hj.mono hmove.log_prefix, hneed⟩
  have hclaims : ∀ id st, m'.claims.lookup id = some st →
      (0 < st.proposed → m'.HasOwned id st.proposed) ∧
        (0 < st.proposed → ∀ j, Held m'.store.log id j → j.owner = m'.self →
        j.epoch ≤ st.proposed) ∧ ∃ j, Held m'.store.log id j ∧
          st.needed = ((j.replicas.pinned.length / 2 + 1 : Nat) : Int) - 1 := by
    intro id st hst
    cases hmove.stands hst with
    | kept st' standing proposed needed => exact hold standing proposed needed
    | seize l found other active unclaimed open_ stored _ after =>
      subst after
      have hl := hm.epochs id l (Node.held_of_find found)
      have hheld' : Held m'.store.log id l := (Node.held_of_find found).mono hmove.log_prefix
      have hnext : 0 < (l.epoch + 1) % 2 ^ 32 → (l.epoch + 1) % 2 ^ 32 = l.epoch + 1 := by
        intro hpos
        omega
      have hfind : 0 < (l.epoch + 1) % 2 ^ 32 → m'.find id = some
          { l with epoch := (l.epoch + 1) % 2 ^ 32, owner := m.self } :=
        find_seized found stored hl.2.1
      refine ⟨fun hpos => ?_, fun hpos j hj ho => ?_, l, hheld', rfl⟩
      · exact ⟨_, Node.held_of_find (hfind hpos), rfl, hself.symm⟩
      · have hlog :
            m'.store.log = m.store.log ++ [.takeover id ((l.epoch + 1) % 2 ^ 32) m.self] := by
          rw [stored, m.store.log_append _ open_]
        rw [hlog] at hj
        change j.epoch ≤ (l.epoch + 1) % 2 ^ 32
        have hnew := hnext hpos
        rcases (held_snoc _ _ id j).mp hj with hprev | hlast
        · rcases hproper.epoch_le hprev with ⟨l', hl', hle⟩
          rw [Store.find_log open_] at hl'
          have hll : l' = l := Option.some.inj (hl'.symm.trans found)
          rw [hll] at hle
          omega
        · have hfind' := hfind hpos
          rw [Node.find, stored] at hfind'
          rw [Table.find_apply_congr _ (Store.find_log open_)] at hlast
          have hjj := Option.some.inj (hlast.symm.trans hfind')
          rw [hjj]
  refine ⟨?_, ?_, fun id st hst => (hclaims id st hst).1, fun id st hst => (hclaims id st hst).2.1,
    fun id st hst => (hclaims id st hst).2.2⟩
  · refine hmove.held_rule (P := fun id j => 0 < j.epoch ∧ j.epoch < 2 ^ 32 ∧
        Owned (Function.update c.node e m') j.owner id j.epoch j.owner)
      (fun id j hj => (hm.mono hgrow).epochs id j hj) (fun r j hw _ hr hheld => ?_)
      (fun r l hw _ hr hl hheld => ?_)
    · rcases hin.full_owned hc hw hr with ⟨p, rfl, _⟩ | ⟨hpos, hlt, hown⟩
      · refine ⟨Nat.one_pos, by change 1 < 2 ^ 32; decide, _, ?_, rfl, rfl⟩
        change Held (Function.update c.node e m' m.self).store.log (m.mintJob p).id (m.mintJob p)
        rw [hme, Function.update_self]
        exact hheld
      · exact ⟨hpos, hlt, hown.grows hafter⟩
    · have hle := r.epoch_le_on l (by rintro b rfl; cases hr)
      have hlm := (hm.mono hgrow).epochs _ l (Node.held_of_find hl)
      rcases hin.on_owned hc hw hr hl with ⟨he, ho⟩ | ⟨x, hx, hown⟩ | ⟨ho, hlt, _⟩
      · rw [he, ho]
        exact hlm
      · refine ⟨by omega, ?_, ?_⟩
        · rcases hown with ⟨j, hj, hje, _⟩
          rw [← hje]
          exact ((hc x).epochs _ j hj).2.1
        · rw [hx]
          exact hown.grows hafter
      · refine ⟨by omega, hlt, r.on l, ?_, rfl, rfl⟩
        rw [ho, Function.update_self]
        exact hheld
  · intro dst boot reqId id proposed o hp hpos
    rw [hself] at hp
    rcases hmove.request_cases hp with hprev | ⟨_, _, _, k, asks, _⟩
    · exact hkeep (hm.sent dst boot reqId id proposed o hprev hpos)
    · cases asks with
      | claim _ _ slot j st standing => exact hkeep (hm.claims id st standing hpos)

end Invariant

end Tautq
