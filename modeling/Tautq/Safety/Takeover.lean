import Tautq.Safety.Inherit

/-!
# Takeovers Have a Majority

A takeover is finalised when a majority of the pinned members, the claimer among
them, has granted the epoch it claims. The claimer holds the epoch from the start,
and a grant is the answer of a member that has just stored it or had it already.

The reply to a claim is counted for whatever claim of the job stands when it
arrives. A node that was demoted and claims the job anew, while a request of its
earlier claim is still in flight, counts the old grant for the new epoch
(`takeover_alone`). So it does when a response of an earlier incarnation is taken
for the reply.

The conditions are that no takeover of a job starts while an earlier claim's
request for it is in flight, and that responses are matched. Every claim request
in flight is then for the claim that stands (`Aligned`), and with at most three
pinned members the first grant makes the majority.

## Main definitions

* `ClaimsOver`, `ClaimsApart`: The conditions.
* `Clear`: While a takeover may start, requests in flight are of standing claims.
* `Aligned`: A claim request in flight proposes what the standing claim does.
* `Stored`: A node has durably held a copy of a job with an epoch and an owner.

## Theorems

* `takeover_alone`: A takeover that nobody else has granted.
* `claims_contested`: Every claim needs a grant.
* `attested`: Who grants or claims an epoch has stored it.
* `takeover_majority`: Under the conditions every takeover has its majority.
-/

namespace Tautq

open Status Cluster

/-- The job whose claim a callback belongs to. -/
def Cont.claimed : Cont → Option JobId
  | .claim id _ => some id
  | _ => none

/-- Where a takeover of a job may start, no request of an earlier claim of it is in flight,
    unless that claim still stands or the job is the node's own or over. -/
def ClaimsOver : Cond := fun c e t =>
  ∀ x ∈ (c.node e).calls.entries, ∀ id ∈ x.2.cont.claimed, t.seizes id = true →
    id ∈ (c.node e).claims ∨ ∀ l ∈ (c.node e).find id, l.owner = e ∨ l.terminal = true

/-- Responses are matched, and claims of one job do not overlap. -/
def ClaimsApart : Cond := fun c e t =>
  Matched c e t ∧ ClaimsOver c e t

instance (c : Cluster) (e : Endpoint) (t : Trigger) : Decidable (ClaimsApart c e t) :=
  have : Decidable (ClaimsOver c e t) :=
    inferInstanceAs (Decidable (∀ x ∈ (c.node e).calls.entries, ∀ id ∈ x.2.cont.claimed,
      t.seizes id = true → id ∈ (c.node e).claims ∨
        ∀ l ∈ (c.node e).find id, l.owner = e ∨ l.terminal = true))
  inferInstanceAs (Decidable (Matched c e t ∧ ClaimsOver c e t))

/-! ### A takeover without a majority -/

namespace Trio

/-- `b` claims epoch 2 and `c` grants it. Before that is known to `b`, `c` takes epoch 3
    with the grant of `b`, and drains: it invites `b`, which claims epoch 4. -/
def reclaimed : List Act :=
  unleased ++
    [.does b (.view [c]), .does b (.peerDead a), .takes b 1, .does c (.view []),
      .does c (.peerDead b), .does c (.view [b]), .does c (.advance 1000), .does c .tick,
      .takes c 2, .takes b 2, .does c .drain, .does c .tick, .takes c 3]

end Trio

/-- The grant of epoch 2 arrives and `b` takes epoch 4, which nobody else has heard of. -/
theorem takeover_alone : ∃ c c', Trio.cluster.init.exec Trio.reclaimed = some c ∧
    c.exec [.takes Trio.c 1] = some c' ∧
    ∃ copy ∈ (c'.node Trio.b).find Trio.job,
      (c'.node Trio.b).events = [.finalized copy] ++ (c.node Trio.b).events ∧
      copy.id = Trio.job ∧ copy.epoch = 4 ∧ copy.replicas.pinned = [Trio.a, Trio.b, Trio.c] ∧
      ((c.node Trio.b).claims.lookup Trio.job).map ClaimState.proposed = some 4 ∧
      ∀ x ∈ [Trio.a, Trio.c], ∀ v ∈ (c'.node x).store.log.inits,
        ∀ j ∈ (replay v).find Trio.job, j.epoch < 4 :=
  run_turns (by decide +kernel)

/-! ### Claims need grants -/

section Invariants

variable {K : Cond} {d : Deployment} {c : Cluster} {e : Endpoint} {t : Trigger} {m m' : Node}

/-- Two different pinned members make a claim that needs a grant. -/
theorem newClaim_needed {l : Job} {p q : Endpoint} (hp : p ∈ l.replicas.pinned)
    (hq : q ∈ l.replicas.pinned) (hne : p ≠ q) (proposed : Nat) :
    0 < (m.newClaim l proposed).needed := by
  have hlen : ¬ l.replicas.pinned.length ≤ 1 := fun hle => hne (pinned_alone hle hp hq)
  simp only [Node.newClaim]
  omega

/-- Every claim needs a grant: it is of a job another pinned member owned. -/
theorem claims_contested : Always K d (fun w => ∀ e, ∀ id st, (w e).claims.lookup id = some st →
    0 < st.needed) := by
  refine always_of_node (Q := fun _ n => ∀ id st, n.claims.lookup id = some st → 0 < st.needed)
    (fun _ h => h) (fun e id st hst => by cases hst) (fun {c e t m m'} hin _ hm _ hmove => ?_)
  intro id st hst
  cases hmove.stands hst with
  | kept st' standing _ needed => exact needed ▸ hm id st' standing
  | seize l found other active unclaimed open_ stored _ after =>
    have hl : Held (Function.update c.node e m e).store.log id l := by
      rw [Function.update_self]
      exact Node.held_of_find found
    -- The owner has held a copy, so it is pinned like this node.
    rcases (owners.inside hin e).epochs id l hl with ⟨_, _, j, hj, _⟩
    have hpinned := held_pinned.inside hin
    rw [after]
    refine newClaim_needed (hpinned _ _ id j l hj hl) (hpinned _ _ id l l hl hl) ?_ _
    rw [← hin.self_eq]
    exact other

/-! ### Requests in flight -/

/-- While a takeover of a job may start, a claim request for it is in flight only if the claim
    stands, or the copy is the node's own or over. -/
def Clear (t : Trigger) (n : Node) : Prop :=
  ∀ reqId call id dst, n.calls.lookup reqId = some call → call.cont = .claim id dst →
    t.seizes id = true → id ∈ n.claims ∨ ∀ l, n.find id = some l → l.owner = n.self ∨
    l.terminal = true

/-- The one request that may lead to a takeover is an invitation. -/
theorem Trigger.asked_of_seizes {ctx : ReqCtx} {id : JobId} (h : t.ctx = some ctx)
    (ht : t.seizes id = true) : ctx.asked = .drainHandoff id := by
  rcases Trigger.eq_of_ctx h with ⟨dst, rfl⟩
  cases hasked : ctx.asked with
  | drainHandoff id' =>
    simp only [Trigger.seizes, hasked, decide_eq_true_eq] at ht
    rw [ht]
  | _ => simp [Trigger.seizes, hasked] at ht

/-- In a step that may seize a job nothing is stored for others. -/
theorem Serves.not_seizes {m₀ : Node} {ctx : ReqCtx} {r : Record} {body : Reply} {id : JobId}
    (h : Serves t m₀ m ctx r body) : t.seizes id = false := by
  by_contra hne
  have ht : t.seizes id = true := by simpa using hne
  cases h with
  | copy j trigger asked =>
    exact absurd (asked.symm.trans (Trigger.asked_of_seizes trigger ht)) (by simp)
  | apply _ epoch l trigger asked =>
    exact absurd (asked.symm.trans (Trigger.asked_of_seizes trigger ht)) (by simp)
  | claim id' proposed l trigger asked =>
    exact absurd (asked.symm.trans (Trigger.asked_of_seizes trigger ht)) (by simp)

/-- Nor is a full copy. -/
theorem Writes.not_full {m₀ : Node} {r : Record} {id : JobId} (hw : Writes t m₀ m r)
    (ht : t.seizes id = true) : r.full = none := by
  cases hw with
  | mint p cb submits =>
    cases submits with
    | client trigger =>
      rw [trigger] at ht
      cases ht
    | forwarded ctx trigger asked =>
      exact absurd (asked.symm.trans (Trigger.asked_of_seizes trigger ht)) (by simp)
  | serve ctx _ body serves => exact absurd (serves.not_seizes.symm.trans ht) (by simp)
  | adopt id' j l answers => exact absurd ((answers.seizes id).symm.trans ht) (by simp)
  | begin_ id' l _ d found owned begins => cases begins <;> rfl
  | unlease | seize => rfl
  | inherit id' st l _ ripe found owned inherits => exact (inherits_spec inherits).2

/-- In such a step a record leaves a copy that is the node's own or over as one that is. -/
theorem Writes.spared {m₀ : Node} {r : Record} {l : Job} (hw : Writes t m₀ m r)
    (ht : t.seizes r.jobId = true) (hl : m.find r.jobId = some l)
    (h : l.owner = m.self ∨ l.terminal = true) :
    (r.on l).owner = m.self ∨ (r.on l).terminal = true := by
  have hfull := hw.not_full ht
  cases hw with
  | mint | adopt => cases hfull
  | serve ctx _ body serves => exact absurd (serves.not_seizes.symm.trans ht) (by simp)
  | begin_ id l' _ d found owned begins =>
    have htrans := begins.transition
    obtain rfl : l' = l := Option.some.inj ((htrans.jobId ▸ found).symm.trans hl)
    exact Or.inl ((r.on_owner_of_not_takeover l' hfull htrans.not_takeover).trans owned)
  | unlease id l' q s epoch leaseSeq worker found =>
    obtain rfl : l' = l := Option.some.inj (found.symm.trans hl)
    rcases h with howned | hover
    · exact Or.inl ((Record.on_owner_of_not_takeover _ l' hfull rfl).trans howned)
    · right
      have hidle : l'.state ≠ .leased := by
        intro hs
        simp [Job.terminal, hs] at hover
      rw [Record.on, if_neg (fun hc => hidle hc.2.1)]
      exact hover
  | seize id l' found other active =>
    obtain rfl : l' = l := Option.some.inj (found.symm.trans hl)
    rcases h with howned | hover
    · exact absurd howned other
    · exact absurd (hover.symm.trans active) (by simp)
  | inherit id st l' _ ripe found owned inherits =>
    have hid := (inherits_spec inherits).1
    obtain rfl : l' = l := Option.some.inj ((hid ▸ found).symm.trans hl)
    exact Or.inl ((r.on_owner_of_not_takeover l' hfull (inherits_fence inherits).2).trans owned)

theorem Clear.move {m₀ : Node} (h : Clear t m)
    (hneed : ∀ id st, m.claims.lookup id = some st → 0 < st.needed) (hmove : Move t m₀ m m') :
    Clear t m' := by
  intro reqId call id dst hcall hk ht
  have hself := hmove.self_eq.1
  -- What a request that was in flight before owes to the state before.
  have hold : ∀ call, m.calls.lookup reqId = some call → call.cont = .claim id dst →
      id ∈ m'.claims ∨ ∀ l, m'.find id = some l → l.owner = m'.self ∨ l.terminal = true := by
    intro call hcall hk
    rcases h reqId call id dst hcall hk ht with hin | hcopy
    · left
      cases hmove.claim_step with
      | same hcl => exact hcl ▸ hin
      | erase id' hcl hwhy =>
        rw [hcl, AList.mem_erase]
        refine ⟨?_, hin⟩
        rintro rfl
        rcases hwhy with hno | ⟨st, hst, hle⟩
        · exact absurd (hno.symm.trans ht) (by simp)
        · have := hneed id st hst
          omega
      | seize id' l _ _ _ _ _ _ hcl => rw [hcl, AList.mem_insert]; exact Or.inr hin
      | merge id' _ _ _ _ _ _ _ _ _ hcl => rw [hcl, AList.mem_insert]; exact Or.inr hin
      | retry id' _ _ _ _ hcl => rw [hcl, AList.mem_insert]; exact Or.inr hin
      | restart _ boot trigger =>
        rw [trigger] at ht
        cases ht
    · right
      intro l' hl'
      rw [hself]
      have hstore := hmove.store_step
      rw [Node.find] at hl'
      generalize m'.store = s at hl' hstore
      cases hstore with
      | same => exact hcopy l' hl'
      | append r writes open_ =>
        rw [Store.append, Table.find_apply] at hl'
        split at hl'
        · rename_i hid
          subst hid
          cases hfind : m.find r.jobId with
          | none =>
            rw [show m.store.table.find r.jobId = none from hfind, Record.effect,
              writes.not_full ht] at hl'
            cases hl'
          | some l =>
            rw [show m.store.table.find r.jobId = some l from hfind] at hl'
            obtain rfl : _ = l' := Option.some.inj hl'
            exact writes.spared ht hfind (hcopy l hfind)
        · exact hcopy l' hl'
      | fail => exact hcopy l' hl'
      | compact d =>
        rw [(Store.compact_eq _ _).1] at hl'
        exact hcopy l' hl'
      | reopen boot trigger =>
        rw [trigger] at ht
        cases ht
  rcases hmove.call_cases hcall with ⟨_, hprev | ⟨dst', body, _, asks, hafter⟩⟩
  · exact hold call hprev hk
  · subst hafter
    rw [hk] at asks
    cases asks with
    | claim _ _ slot j st standing =>
      have hmem : id ∈ m.claims := AList.lookup_isSome.mp (by rw [standing]; rfl)
      exact Or.inl hmem

theorem Inside.clear (hK : ∀ c e t, K c e t → ClaimsOver c e t) (hin : Inside K d c e t m) :
    Clear t m := by
  rcases hin with ⟨hr, hallow, hmem, hadm, hdel, hpath⟩
  induction hpath with
  | refl =>
    intro reqId call id dst hcall hk ht
    have hself := (names.reach hr e).1
    have hover := hK c e t hallow ⟨reqId, call⟩ (AList.mem_lookup_iff.mp hcall) id
      (by rw [hk]; rfl) ht
    rcases hover with hin | hcopy
    · exact Or.inl hin
    · exact Or.inr (fun l hl => hself.symm ▸ hcopy l hl)
  | tail hpre hmove ih =>
    have hneed := claims_contested.inside ⟨hr, hallow, hmem, hadm, hdel, hpre⟩ e
    rw [Function.update_self] at hneed
    exact ih.move hneed hmove

/-- A claim request in flight proposes what the standing claim of the job proposes. -/
def Aligned (n : Node) : Prop :=
  ∀ reqId call id dst st, n.calls.lookup reqId = some call → call.cont = .claim id dst →
    n.claims.lookup id = some st →
      .request n.self dst n.boot reqId (.claim id st.proposed n.self) ∈ n.outbox

theorem aligned (hK : ∀ c e t, K c e t → ClaimsOver c e t) :
    Always K d (fun w => ∀ e, Aligned (w e)) := by
  refine always_of_node (Q := fun _ n => Aligned n) (fun _ h => h)
    (fun e reqId call id dst st hcall => by cases hcall) (fun {c e t m m'} hin _ hm _ hmove => ?_)
  intro reqId call id dst st hcall hk hst
  have hspent := hin.clear hK
  have hself := hmove.self_eq.1
  -- A request in flight before, whose claim still proposes the same.
  have hkeep : ∀ st', m.calls.lookup reqId = some call → m.claims.lookup id = some st' →
      st'.proposed = st.proposed → .request m.self dst m.boot reqId (.claim id st.proposed m.self) ∈
        m'.outbox := by
    intro st' hcall' hst' hprop
    rw [← hprop]
    exact hmove.grows.outbox.subset (hm reqId call id dst st' hcall' hk hst')
  have hold : m.calls.lookup reqId = some call → .request m.self dst m.boot reqId
      (.claim id st.proposed m.self) ∈ m'.outbox := by
    intro hcall'
    cases hmove.stands hst with
    | kept st' standing proposed => exact hkeep st' hcall' standing proposed.symm
    | seize l found other active unclaimed open_ stored ht =>
      -- A takeover does not start with a request of the job in flight.
      rcases hspent reqId call id dst hcall' hk ht with hclaimed | hcopy
      · exact absurd hclaimed unclaimed
      · rcases hcopy l found with howned | hover
        · exact absurd howned other
        · exact absurd (hover.symm.trans active) (by simp)
  rw [hself]
  rcases hmove.call_cases hcall with ⟨hboot, hprev | ⟨dst', body, rfl, asks, hafter⟩⟩
  · rw [hboot]
    exact hold hprev
  · subst hafter
    rw [hk] at asks
    cases asks with
    | claim _ _ slot j st' standing =>
      obtain rfl : st' = st := Option.some.inj (standing.symm.trans hst)
      exact List.mem_append_right _ (List.mem_singleton.mpr rfl)

/-- So a grant is for the claim that stands. -/
theorem Inside.stands (hK : ∀ c e t, K c e t → ClaimsApart c e t) (hin : Inside K d c e t m) :
    GrantsStand c e t := by
  unfold GrantsStand
  split
  · rename_i src dst boot reqId id' proposed o code body
    split
    · rename_i peer deadline id dst' hcall
      intro _ st hst
      rcases hin.delivered _ rfl with ⟨hdst, x, hx⟩
      change dst = e at hdst
      subst hdst
      have hself := (names.reach hin.reach dst).1
      have hwire := wire.reach hin.reach dst
      have hwx := wire.reach hin.reach x
      have hname : src = x := (hwx.src _ hx).trans (names.reach hin.reach x).1
      subst hname
      -- The reply is to a request of this incarnation, and request ids are not reused in one.
      have hboot : boot = (c.node dst).boot := by
        have hadm := hin.admitted
        simpa [Node.admits, Request.deferred] using hadm
      have hwait := (aligned (fun c e t h => (hK c e t h).2)).reach hin.reach dst reqId _ id dst' st
        hcall rfl hst
      have hasked :=
        hwx.replies dst boot reqId _ _ _ (by rw [(names.reach hin.reach src).1]; exact hx)
      rw [Sent, (names.reach hin.reach src).1] at hasked
      rw [← hboot, hself] at hwait
      have hsame := (hwire.unique src dst' boot reqId _ _ (by rw [hself]; exact hasked)
        (by rw [hself]; exact hwait)).2
      exact (Request.claim.inj hsame).2.1
    · trivial
  · trivial

/-- A node has durably held a copy of a job with an epoch and an owner. -/
def Stored (w : World) (x : Endpoint) (id : JobId) (epoch : Nat) (o : Endpoint) : Prop :=
  ∃ j, Held (w x).store.wal id j ∧ j.epoch = epoch ∧ j.owner = o

theorem Stored.grows {w w' : World} {x o : Endpoint} {id : JobId} {epoch : Nat} (h : w.Grows w')
    (hs : Stored w x id epoch o) : Stored w' x id epoch o := by
  rcases hs with ⟨j, hj, he, ho⟩
  exact ⟨j, hj.mono (h x).wal, he, ho⟩

theorem Stored.owned {w : World} {x o : Endpoint} {id : JobId} {epoch : Nat}
    (hs : Stored w x id epoch o) : Owned w x id epoch o := by
  rcases hs with ⟨j, hj, he, ho⟩
  exact ⟨j, hj.mono (w x).store.wal_prefix_log, he, ho⟩

theorem Stored.of_find {w : World} {x : Endpoint} {id : JobId} {j : Job}
    (h : (w x).find id = some j) : Stored w x id j.epoch j.owner := by
  rw [Node.find, (w x).store.replayed] at h
  exact ⟨j, held_last h, rfl, rfl⟩

/-- Who has granted an epoch has stored it, under the node it was granted to, and who
    claims an epoch has stored it as its own. -/
structure Attested (w : World) (n : Node) : Prop where
  granted : ∀ dst boot reqId id proposed o state s,
    .response n.self dst boot reqId (.claim id proposed o) kCreated
    (.claimInfo state s) ∈ n.outbox →
      Stored w n.self id proposed dst
  claimed : ∀ id st, n.claims.lookup id = some st → 0 < st.proposed →
    Stored w n.self id st.proposed n.self

theorem Attested.mono {w w' : World} {n : Node} (hg : w.Grows w') (h : Attested w n) :
    Attested w' n :=
  ⟨fun dst boot reqId id proposed o state s hp =>
      (h.granted dst boot reqId id proposed o state s hp).grows hg,
    fun id st hst hpos => (h.claimed id st hst hpos).grows hg⟩

theorem Inside.grant_stored (hin : Inside K d c e t m)
    (hm : Attested (Function.update c.node e m) m)
    (hmove : Move t (c.node e) m m') {dst : Endpoint} {boot reqId : Nat} {id : JobId}
    {proposed : Nat} {o : Endpoint} {state : JobState} {s : Nat}
    (hp : .response m'.self dst boot reqId (.claim id proposed o) kCreated (.claimInfo state s) ∈
      m'.outbox) : Stored (Function.update c.node e m') m'.self id proposed dst := by
  have hgrow := World.grows_update c.node e hmove.grows
  rw [hmove.self_eq.1] at hp ⊢
  rcases hmove.response_cases hp with hold | hnew
  · exact (hm.granted dst boot reqId id proposed o state s hold).grows hgrow
  · have hstored : ∀ j, m'.find id = some j →
        Stored (Function.update c.node e m') m.self id j.epoch j.owner := by
      intro j hj
      refine Stored.of_find ?_
      rw [hin.self_eq, Function.update_self]
      exact hj
    generalize hasked : Request.claim id proposed o = asked at hnew
    cases hnew with
    | regrant ctx id' j trigger asked' found member owner same =>
      rw [asked', Request.claim.injEq] at hasked
      rcases hasked with ⟨rfl, rfl, _⟩
      rw [← owner]
      refine hstored j ?_
      rw [Node.find, same]
      exact found
    | serve ctx r _ serves open_ stored =>
      cases serves with
      | claim id' proposed' l trigger asked' found member higher =>
        rw [asked', Request.claim.injEq] at hasked
        rcases hasked with ⟨rfl, rfl, rfl⟩
        have hfind := Node.find_append found stored rfl
        rw [Record.on, if_pos higher] at hfind
        exact hstored _ hfind

theorem attested : Always K d (fun w => ∀ e, Attested w (w e)) := by
  refine always_of_node (fun hg => Attested.mono hg)
    (fun e => ⟨fun dst boot reqId id proposed o state s hp => (by cases hp),
    fun id st hst => (by cases hst)⟩) (fun {c e t m m'} hin _ hm hgrow hmove => ?_)
  have howners := owners.inside hin e
  rw [Function.update_self] at howners
  refine ⟨fun _ _ _ _ _ _ _ _ hp => hin.grant_stored hm hmove hp, fun id st hst hpos => ?_⟩
  rw [hmove.self_eq.1]
  -- A claim that stands keeps what it proposes.
  have hold : ∀ {st' : ClaimState}, m.claims.lookup id = some st' → st.proposed = st'.proposed →
      Stored (Function.update c.node e m') m.self id st.proposed m.self := by
    intro st' hst' hsame
    rw [hsame] at hpos ⊢
    exact (hm.claimed id st' hst' hpos).grows hgrow
  cases hmove.stands hst with
  | kept st' standing proposed => exact hold standing proposed
  | seize l found other active unclaimed open_ stored _ after =>
    have hlt := (howners.epochs id l (Node.held_of_find found)).2.1
    rw [after] at hpos ⊢
    have hfind := find_seized found stored hlt hpos
    rw [show m' = Function.update c.node e m' m.self by
      rw [hin.self_eq, Function.update_self]] at hfind
    exact Stored.of_find hfind

end Invariants

/-! ### Finalising -/

/-- In every run that meets the conditions, a takeover that is finalised is of the epoch the
    claim proposed, and a majority of the pinned members, the claimer among them, has held the
    job at that epoch as the claimer's. -/
theorem takeover_majority (d : Deployment) (acts : List Act) (a : Act) (c c' : Cluster)
    (hrun : d.init.exec acts = some c) (hstep : c.step a = some c')
    (hK : d.init.Meets ClaimsApart (acts ++ [a])) (q : Endpoint) (new : List Event) (copy : Job)
    (hnew : (c'.node q).events = new ++ (c.node q).events) (hfin : .finalized copy ∈ new) :
    (∃ st, (c.node q).claims.lookup copy.id = some st ∧ st.proposed = copy.epoch) ∧
    ∃ members : Finset Endpoint, members ⊆ copy.replicas.pinned.toFinset ∧
      copy.replicas.pinned.toFinset.card < 2 * members.card ∧ q ∈ members ∧
      ∀ x ∈ members, Stored c.node x copy.id copy.epoch q := by
  rcases (Run.meets_append _ _ _ _ _ hrun).mp hK with ⟨hpre, hallow, _⟩
  have hreach : Reach ClaimsApart d c := .of_run hrun hpre
  have hnames := names.reach hreach
  rcases hreach.step_reports hallow hstep hnew hfin with ⟨t, m₁, m₂, _, hin₁, hmove, hrep, _⟩
  cases hrep with
  | idle _ h => cases h
  | finalize id st l _ standing ripe found owned none_ some_ after =>
    have hcopy : copy.id = id := m₂.store.find_id after
    subst hcopy
    have hin₂ := hin₁.tail hmove
    have howners := owners.inside hin₁ q
    have hproper := (copies.inside hin₁ q).proper
    have hcontest := claims_contested.inside hin₁ q copy.id st
    rw [Function.update_self] at howners hproper hcontest
    cases ripe with
    | alone _ _ _ _ _ none' => exact absurd (hcontest standing) (by omega)
    | granted dst body st₀ bit answers standing₀ merged enough first =>
      have hK₁ := hin₁.allowed
      have hstand := hin₁.stands (fun _ _ _ h => h)
      rcases hin₁.grant_stands hK₁.1 hstand answers standing₀ with
        ⟨state, s, rfl, hdst, boot, reqId, hp⟩
      have hgrant := (attested.reach hreach dst).granted q boot reqId copy.id st₀.proposed q state s
        (by rw [(hnames dst).1]; exact hp)
      rw [(hnames dst).1] at hgrant
      have hpos : 0 < st₀.proposed := by
        rcases hgrant.owned with ⟨j, hj, he, _⟩
        rw [← he]
        exact ((owners.reach hreach dst).epochs copy.id j hj).1
      have hclaim := (attested.reach hreach q).claimed copy.id st₀ standing₀ hpos
      rw [(hnames q).1] at hclaim
      -- The copy is at the epoch of the claim, which is stored and the newest of its owner.
      have hle : l.epoch ≤ st₀.proposed := by
        have hprop : st.proposed = st₀.proposed := by
          rw [merged]
          exact (st₀.merged_kept bit _).1
        rw [← hprop] at hpos ⊢
        exact howners.newest copy.id st standing hpos l (Node.held_of_find found) owned
      have hge : st₀.proposed ≤ l.epoch := by
        rcases hclaim with ⟨j, hj, he, _⟩
        have hgrow := (hin₁.grows q).wal
        rw [Function.update_self] at hgrow
        rcases (hproper.mono m₁.store.wal_prefix_log).epoch_le (hj.mono hgrow) with ⟨l', hl', hle'⟩
        rw [← m₁.store.replayed] at hl'
        have hll : l' = l := Option.some.inj (hl'.symm.trans found)
        rw [← he, ← hll]
        exact hle'
      have hepoch : copy.epoch = st₀.proposed :=
        (finalized_covers found none_ some_ after).1.trans (by omega)
      have hheld : Held (Function.update c.node q m₂ q).store.log copy.id copy := by
        rw [Function.update_self]
        exact Node.held_of_find after
      -- Both have held the job, so both are pinned; and no more than three are.
      have hpin : ∀ x, Stored c.node x copy.id st₀.proposed q → x ∈ copy.replicas.pinned := by
        intro x hx
        rcases (hx.owned.grows hin₂.grows) with ⟨j, hj, _⟩
        exact held_pinned.inside hin₂ x q copy.id j copy hj hheld
      refine ⟨⟨st₀, standing₀, hepoch.symm⟩, {q, dst}, ?_, ?_, by simp, ?_⟩
      · intro x hx
        rw [List.mem_toFinset]
        rcases Finset.mem_insert.mp hx with rfl | hx
        · exact hpin x hclaim
        · rw [Finset.mem_singleton.mp hx]
          exact hpin dst hgrant
      · rw [Finset.card_pair (Ne.symm hdst)]
        have hcard := copy.replicas.pinned.toFinset_card_le
        have hlen : copy.replicas.pinned.length ≤ copy.replicas.toList.length :=
          List.length_filter_le _ _
        have hthree : copy.replicas.toList.length = 3 := rfl
        omega
      · intro x hx
        rw [hepoch]
        rcases Finset.mem_insert.mp hx with rfl | hx
        · exact hclaim
        · rw [Finset.mem_singleton.mp hx]
          exact hgrant

namespace Trio

/-- `a` is declared dead at `b`, which claims its job; the request has reached `c`. -/
def claimedOnce : List Act :=
  unleased ++ [.does b (.view [c]), .does b (.peerDead a), .takes b 1]

end Trio

/-- The grant of `c` makes the majority. -/
theorem takeover_majority_claimedOnce : ∃ c c', Trio.cluster.init.exec Trio.claimedOnce = some c ∧
    c.step (.takes Trio.c 1) = some c' ∧
    Trio.cluster.init.Meets ClaimsApart (Trio.claimedOnce ++ [.takes Trio.c 1]) ∧
    ∃ copy, .finalized copy ∈ (c'.node Trio.b).events ∧ copy.epoch = 2 ∧
      ∃ members : Finset Endpoint, members ⊆ copy.replicas.pinned.toFinset ∧
        copy.replicas.pinned.toFinset.card < 2 * members.card ∧ Trio.b ∈ members ∧
        ∀ x ∈ members, Stored c.node x copy.id copy.epoch Trio.b := by
  have hK : Trio.cluster.init.Meets ClaimsApart (Trio.claimedOnce ++ [.takes Trio.c 1]) := by
    decide +kernel
  have hshow : ∃ c c', Trio.cluster.init.exec Trio.claimedOnce = some c ∧
      c.exec [.takes Trio.c 1] = some c' ∧ ∃ copy ∈ (c'.node Trio.b).find Trio.job,
        (c'.node Trio.b).events = [.finalized copy] ++ (c.node Trio.b).events ∧ copy.epoch = 2 :=
    run_turns (by decide +kernel)
  rcases hshow with ⟨c, c', hc, hc', copy, _, hev, he⟩
  rcases Option.bind_eq_some_iff.mp hc' with ⟨c₁, hstep, hc₁⟩
  cases hc₁
  refine ⟨c, c', hc, hstep, hK, copy, ?_, he, ?_⟩
  · rw [hev]
    exact List.mem_append_left _ (List.mem_singleton.mpr rfl)
  · exact (takeover_majority _ _ _ c c' hc hstep hK Trio.b [.finalized copy] copy hev
      (List.mem_singleton.mpr rfl)).2

end Tautq
