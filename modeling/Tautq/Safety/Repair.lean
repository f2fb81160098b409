import Tautq.Theory.Versions
import Tautq.Safety.Runs

/-!
# Repaired Means Current

An owner keeps a job in `repair` until every replica has confirmed its copy, and
then takes it out as repaired. A confirmation is the positive reply to a full copy
or to a transition record, whichever arrives.

That the copies are then the owner's does not follow. A replica that has missed an
expiry declines the full copy it is sent, since its own counts as more advanced,
and confirms it all the same (`repaired_stale`). A reply to a request of an
earlier version confirms the current one. A lease that fails its quorum is given
back without resetting what is confirmed. And a replica that has confirmed may
follow a new owner before the old one has heard of it.

The conditions exclude these four. Then whoever has confirmed, or is about to, has
the owner's version (`Current`), for as long as the owner keeps an entry or waits
for a reply.

## Main definitions

* `Node.tends`: A node keeps a repair entry of a job or waits for a confirmation.
* `ConfirmsCurrent`, `CopiesLand`, `TakeoversWait`, `GrantsWait`, `CopiesWait`,
  `RestartsWait`, `InheritsForward`, `Repairable`: The conditions.
* `Vouches`, `Current`: Who has confirmed, or is about to, has the owner's version.
* `Repaired`: A job is in `repair`, or its replicas have the owner's version.

## Theorems

* `repaired_stale`: A job is taken out of `repair` while a replica is behind.
* `current`: Under the conditions, `Current` holds at all times.
* `repaired_current`: Under the conditions a repaired job is current everywhere.
-/

namespace Tautq

open Status Cluster

/-! ### Conditions -/

/-- A commit's callback waits for a lease of the job. -/
def DoneCb.leases (d : DoneCb) (id : JobId) : Bool :=
  match d with
  | .lease id' _ _ _ => id' = id
  | _ => false

/-- A lease commit of a job is not decided yet. -/
def Node.undecided (n : Node) (id : JobId) (q : Nat) : Prop :=
  ∃ s ∈ n.qstates[q]?, s.fired = false ∧ s.done.leases id = true

instance (n : Node) (id : JobId) (q : Nat) : Decidable (n.undecided id q) :=
  inferInstanceAs (Decidable (∃ s ∈ n.qstates[q]?, s.fired = false ∧ s.done.leases id = true))

/-- No lease commit of a job is undecided. -/
def Node.unleased (n : Node) (id : JobId) : Prop :=
  ∀ q < n.qstates.length, ¬ n.undecided id q

instance (n : Node) (id : JobId) : Decidable (n.unleased id) :=
  inferInstanceAs (Decidable (∀ q < n.qstates.length, ¬ n.undecided id q))

/-- A node keeps a repair entry of a job or waits for a confirmation. -/
def Node.tends (n : Node) (id : JobId) : Prop :=
  id ∈ n.repair ∨ ∃ x ∈ n.calls.entries, x.2.cont.confirms.map Prod.fst = some id

instance (n : Node) (id : JobId) : Decidable (n.tends id) :=
  inferInstanceAs (Decidable (id ∈ n.repair ∨
    ∃ x ∈ n.calls.entries, x.2.cont.confirms.map Prod.fst = some id))

/-- Nobody tends a job, some nodes aside. -/
def Cluster.Untended (c : Cluster) (skip : List Endpoint) (id : JobId) : Prop :=
  ∀ x ∈ c.members, x ∉ skip → ¬ (c.node x).tends id

instance (c : Cluster) (skip : List Endpoint) (id : JobId) : Decidable (c.Untended skip id) :=
  inferInstanceAs (Decidable (∀ x ∈ c.members, x ∉ skip → ¬ (c.node x).tends id))

/-- The commit whose reply a callback counts. -/
def Cont.commit : Cont → Option Nat
  | .apply _ _ _ _ q => some q
  | _ => none

/-- A confirmation is of the owner's current version, and no lease of the job waits for its
    quorum but the one it confirms. -/
def ConfirmsCurrent : Cond := fun c e t =>
  match t with
  | .packet (.response _ _ _ reqId asked st _) =>
    st = kCreated ∨ st = kDuplicate → ∀ call ∈ (c.node e).calls.lookup reqId,
      ∀ x ∈ call.cont.confirms, ∀ l ∈ (c.node e).find x.1, l.owner = e →
        asked.carries l ∧ ∀ q < (c.node e).qstates.length, (c.node e).undecided x.1 q →
          call.cont.commit = some q
  | _ => True

/-- What a replica accepts is of the sender's current version, and takes the replica's copy
    there or finds it there. -/
def CopiesLand : Cond := fun c e t =>
  match t with
  | .packet (.request src _ _ _ (.replicate j)) =>
    (∀ k ∈ (c.node e).find j.id, k.epoch ≤ j.epoch) →
      (∀ l ∈ (c.node src).find j.id, Agree j l) ∧
        ∀ k ∈ (c.node e).find j.id, Agree k j ∨ jobAdvances k j = true
  | .packet (.request src _ _ _ (.apply r)) =>
    ∀ k ∈ (c.node e).find r.jobId, ∀ epoch ∈ r.fence, k.epoch ≤ epoch → k.owner = src →
      ∀ l ∈ (c.node src).find r.jobId, r.leaves l ∧ r.meets k l
  | _ => True

/-- No takeover of a job starts while somebody tends it. -/
def TakeoversWait : Cond := fun c e t =>
  ∀ x ∈ (c.node e).store.table.jobs.entries, t.seizes x.1 = true → x.2.owner ≠ e →
    x.2.terminal = false → c.Untended [] x.1

/-- No later epoch is granted while another node tends the job, or while this node waits for
    the quorum of a lease. -/
def GrantsWait : Cond := fun c e t =>
  match t with
  | .packet (.request _ _ _ _ (.claim id proposed _)) =>
    ∀ l ∈ (c.node e).find id, l.epoch < proposed → c.Untended [e] id ∧ (c.node e).unleased id
  | _ => True

/-- The node a full copy is replicated from. -/
def Trigger.donor : Trigger → List Endpoint
  | .packet (.request src _ _ _ (.replicate _)) => [src]
  | _ => []

/-- No full copy is installed while a third node tends the job, or while this node waits for
    the quorum of a lease; and none makes this node the owner. -/
def CopiesWait : Cond := fun c e t =>
  ∀ j ∈ t.brings (c.node e), (∀ l ∈ (c.node e).find j.id, jobAdvances l j = true) →
    c.Untended (e :: t.donor) j.id ∧ (c.node e).unleased j.id ∧ j.owner ≠ e

/-- No record in doubt comes back while another node tends the job. -/
def RestartsWait : Cond := fun c e t =>
  match t with
  | .input (.restart _) => ∀ r ∈ (c.node e).store.limbo, c.Untended [e] r.jobId
  | _ => True

/-- No takeover inherits a lease that the claimer has already expired. -/
def InheritsForward : Cond := fun c e t =>
  ∀ g ∈ t.grants (c.node e), ∀ st ∈ (c.node e).claims.lookup g.1, ∀ l ∈ (c.node e).find g.1,
    l.state = .ready → st.bestState = .leased ∨ g.2.1 = .leased →
      l.leaseSeq < st.bestSeq ∨ l.leaseSeq < g.2.2

/-- The conditions. -/
structure Repairable (c : Cluster) (e : Endpoint) (t : Trigger) : Prop where
  matched : Matched c e t
  confirms : ConfirmsCurrent c e t
  land : CopiesLand c e t
  takeovers : TakeoversWait c e t
  grants : GrantsWait c e t
  copies : CopiesWait c e t
  restarts : RestartsWait c e t
  inherits : InheritsForward c e t
  unwrapped : Unwrapped c e t

instance (c : Cluster) (e : Endpoint) (t : Trigger) : Decidable (ConfirmsCurrent c e t) :=
  match t with
  | .packet (.response _ _ _ _ _ _ _) => inferInstanceAs (Decidable (_ → ∀ call ∈ _, _))
  | .packet (.request _ _ _ _ _) | .input _ => instDecidableTrue

instance (c : Cluster) (e : Endpoint) (t : Trigger) : Decidable (CopiesLand c e t) := by
  unfold CopiesLand
  split <;> infer_instance

instance (c : Cluster) (e : Endpoint) (t : Trigger) : Decidable (TakeoversWait c e t) := by
  unfold TakeoversWait
  infer_instance

instance (c : Cluster) (e : Endpoint) (t : Trigger) : Decidable (GrantsWait c e t) := by
  unfold GrantsWait
  split <;> infer_instance

instance (c : Cluster) (e : Endpoint) (t : Trigger) : Decidable (CopiesWait c e t) := by
  unfold CopiesWait
  infer_instance

instance (c : Cluster) (e : Endpoint) (t : Trigger) : Decidable (RestartsWait c e t) := by
  unfold RestartsWait
  split <;> infer_instance

instance (c : Cluster) (e : Endpoint) (t : Trigger) : Decidable (InheritsForward c e t) := by
  unfold InheritsForward
  infer_instance

instance (c : Cluster) (e : Endpoint) (t : Trigger) : Decidable (Repairable c e t) :=
  decidable_of_iff (Matched c e t ∧ ConfirmsCurrent c e t ∧ CopiesLand c e t ∧ TakeoversWait c e t ∧
      GrantsWait c e t ∧ CopiesWait c e t ∧ RestartsWait c e t ∧ InheritsForward c e t ∧
      Unwrapped c e t)
    ⟨fun ⟨h₁, h₂, h₃, h₄, h₅, h₆, h₇, h₈, h₉⟩ => ⟨h₁, h₂, h₃, h₄, h₅, h₆, h₇, h₈, h₉⟩,
      fun h => ⟨h.1, h.2, h.3, h.4, h.5, h.6, h.7, h.8, h.9⟩⟩

namespace Trio

/-- A lease of the job and its nack, of which `b` misses the expiry; then the repair tick
    sends `b` the full copy, which it declines and confirms. -/
def declined : List Act :=
  unleased ++
    [.takes b 0, .takes c 0, .does a (.lease 7), .takes a 2, .takes a 3, .takes b 1, .takes c 1,
      .does a (.ack job 1 1 false), .takes a 5, .takes c 2, .does a (.advance 2000), .does a .tick,
      .takes a 6]

end Trio

section Moving

variable {K : Cond} {d : Deployment} {c : Cluster} {e : Endpoint} {t : Trigger} {m m' : Node}

theorem takeover_moved (a : Endpoint) (id : JobId) (epoch : Nat) (o : Endpoint) (l : Job) :
    Moved a l ((Record.takeover id epoch o).on l) := by
  rw [Record.on]
  split
  case isTrue hlt => exact Or.inr ⟨hlt.le, Or.inr (Or.inl hlt)⟩
  case isFalse => exact Or.inl (.refl l)

theorem Transition.moved {id : JobId} {l : Job} {r : Record} (h : Transition id l r)
    (hnext : ∀ id epoch leaseSeq worker, r = .lease id epoch leaseSeq worker →
      leaseSeq = l.leaseSeq + 1) : Moved l.owner l (r.on l) :=
  Or.inr ⟨h.epoch_on.ge, Or.inr (Or.inr ⟨h.epoch_on.symm, rfl, h.stage_lt hnext⟩)⟩

/-- What a takeover inherits goes forward as well. -/
theorem inherits_moved {id : JobId} {st : ClaimState} {l : Job} {r : Record}
    (h : Node.inherits id st l = some r)
    (hforward : l.state = .ready → st.bestState = .leased → l.leaseSeq < st.bestSeq) :
    Moved l.owner l (r.on l) := by
  have hstep : ∀ l' : Job, l'.epoch = l.epoch → l.stage < l'.stage → Moved l.owner l l' :=
    fun l' he hst => Or.inr ⟨he.ge, Or.inr (Or.inr ⟨he.symm, rfl, hst⟩)⟩
  unfold Node.inherits at h
  split at h
  case isTrue hdone =>
    cases h
    rw [Record.on, if_pos ⟨Nat.le_refl _, hdone.2⟩]
    refine hstep _ rfl ?_
    simp only [Job.stage]
    cases hs : l.state with
    | ready | leased | deadLetter => exact stage_lt_of_fst (by simp)
    | done => exact absurd hs hdone.2
  case isFalse =>
    split at h
    case isTrue hdead =>
      cases h
      rw [Record.on, if_pos ⟨Nat.le_refl _, hdead.2.1⟩]
      refine hstep _ rfl ?_
      simp only [Job.stage]
      cases hs : l.state with
      | ready | leased => exact stage_lt_of_fst (by simp)
      | done => exact absurd hs hdead.2.1
      | deadLetter => exact absurd hs hdead.2.2
    case isFalse =>
      split at h
      case isTrue hlease =>
        cases h
        rw [Record.on]
        split
        case isTrue hopen =>
          refine hstep _ rfl ?_
          simp only [Job.stage]
          cases hs : l.state with
          | ready =>
            have hlt : l.leaseSeq < st.bestSeq := hlease.1.elim (hforward hs) (fun hlt => hlt)
            simp only [if_pos hlt]
            exact stage_lt_of_snd (by omega)
          | leased =>
            have hlt : l.leaseSeq < st.bestSeq := hlease.2.resolve_left (fun hne => hne hs)
            simp only [if_pos hlt]
            exact stage_lt_of_snd (by omega)
          | done => exact absurd hs hopen.2.1
          | deadLetter => exact absurd hs hopen.2.2
        case isFalse => exact Or.inl (.refl l)
      case isFalse => cases h

/-- A claim that is ripe does not report a lease as running that the copy says is over. -/
theorem Inside.ripe_forward (hin : Inside K d c e t m) (hK : Repairable c e t) {id : JobId}
    {st : ClaimState} {l : Job} (ripe : Ripe t (c.node e) m id st) (found : m.find id = some l)
    (hready : l.state = .ready) (hbest : st.bestState = .leased) : l.leaseSeq < st.bestSeq := by
  cases ripe with
  | alone l' found' state =>
    have hll : l' = l := Option.some.inj (found'.symm.trans found)
    rw [hll, hready, hbest] at state
    cases state
  | granted dst body st₀ bit answers standing merged enough first =>
    rw [Node.find, first] at found
    rcases hin.answered answers with ⟨src, asked, _, hfits, hexp | ⟨_, hnot⟩⟩
    · cases hexp with
      | claim _ proposed other =>
        rcases hfits with ⟨_, state, s, rfl⟩ | ⟨hne, _⟩
        · have hst := (st₀.count_best bit)
          have hwait := hK.inherits _ answers.grants st₀ standing l found hready
          rw [merged, Reply.asClaimInfo, ClaimState.merge] at hbest ⊢
          simp only [hst] at hbest ⊢
          have hone : st₀.bestState = .leased ∨ state = .leased := by
            split at hbest
            · exact Or.inr hbest
            · exact Or.inl hbest
          have hlt : l.leaseSeq < st₀.bestSeq ∨ l.leaseSeq < s := hwait hone
          split <;> omega
        · exact absurd rfl hne
    · exact absurd hK.matched hnot

/-- What a record does to the copy of the node that writes it. -/
theorem Inside.moved (hin : Inside K d c e t m) (hK : Repairable c e t) {r : Record} {l : Job}
    (hw : Writes t (c.node e) m r) (hl : m.find r.jobId = some l) : Moved e l (r.on l) := by
  have hself := hin.self_eq
  -- A full copy names another owner where it replaces the stored one.
  have hfull : ∀ j, r = .replicate j → Moved e l (r.on l) := by
    rintro j rfl
    rcases hw.brings with ⟨hbrings, hfirst⟩
    rw [Record.on]
    split
    case isTrue hadv =>
      rw [Node.find, hfirst] at hl
      refine Or.inr ⟨jobAdvances_epoch hadv, Or.inl (hK.copies j hbrings ?_).2.2⟩
      intro l' hl'
      rwa [Option.some.inj (hl'.symm.trans hl)]
    case isFalse => exact Or.inl (.refl l)
  have howned : ∀ l' : Job, m.find r.jobId = some l' → l'.owner = m.self → l = l' ∧ l.owner = e :=
    fun l' hl' ho => by
      have hll : l = l' := Option.some.inj (hl.symm.trans hl')
      exact ⟨hll, hll ▸ ho.trans hself⟩
  cases hw with
  | mint p cb =>
    exact absurd (Node.held_of_find hl) (hin.mint_unheld (.mint p cb ‹_› ‹_› ‹_› ‹_› ‹_› ‹_›))
  | adopt id j => exact hfull j rfl
  | serve ctx _ body serves =>
    have heff : r.effect (m.find r.jobId) = some (r.on l) := by rw [hl, Record.effect]
    rcases hin.served_owner serves heff with ⟨j, rfl⟩ | hne
    · exact hfull j rfl
    · exact Or.inr ⟨r.epoch_le_on l serves.not_submit, Or.inl hne⟩
  | begin_ id l' r d found owned begins =>
    have htrans := begins.transition
    rw [htrans.jobId] at hl howned
    rcases howned l' found owned with ⟨rfl, ho⟩
    rw [← ho]
    refine htrans.moved (fun id' epoch s worker hr => ?_)
    cases begins with
    | lease _ trigger ready within first =>
      cases hr
      rw [Node.find, first] at hl
      exact (trigger ▸ hK.unwrapped : Unwrapped c e (.input (.lease worker))).next hl
    | exhausted | parked | expired | nacked | done => cases hr
  | unlease id l' q s epoch leaseSeq worker found =>
    have hll : l = l' := Option.some.inj (hl.symm.trans found)
    subst hll
    by_cases hst : l.state = .leased
    · by_cases ho : l.owner = e
      · rw [← ho]
        exact (Transition.expire hst).moved (fun _ _ _ _ hr => by cases hr)
      · have htrans : Transition id l (.expire id l.epoch l.leaseSeq) := .expire hst
        refine Or.inr ⟨htrans.epoch_on.ge, Or.inl ?_⟩
        rw [Record.on_owner_of_not_takeover _ _ rfl rfl]
        exact ho
    · rw [Record.on, if_neg (fun h => hst h.2.1)]
      exact Or.inl (.refl l)
  | seize id l' => exact takeover_moved e id _ m.self l
  | inherit id st l' r ripe found owned inherits =>
    have hid := (inherits_spec inherits).1
    rw [hid] at hl howned
    rcases howned l' found owned with ⟨rfl, ho⟩
    rw [← ho]
    exact inherits_moved inherits (fun hready hbest => hin.ripe_forward hK ripe found hready hbest)

/-- The versions a node's log goes through. -/
theorem onward : Always Repairable d (fun w => ∀ e, Steps (Onward e) (w e).store.log) :=
  always_of_writes (R := Onward) (fun hin hw hl => (hin.moved hin.allowed hw hl).onward)

/-! ### Leases that wait for their quorum -/

/-- A lease commit is undecided from its start, or since the lease was asked for. -/
theorem Move.undecided_cases (h : Move t (c.node e) m m') {id : JobId} {q : Nat}
    (hu : m'.undecided id q) :
    m.undecided id q ∨ ((∃ worker, t = .input (.lease worker)) ∧
      m'.repair = m.repair.insert id 0 ∧ ∃ l, m'.find id = some l ∧ l.owner = m.self) := by
  rcases hu with ⟨s, hs, hfired, hlease⟩
  rcases h.commit_cases hs with
    ⟨s₀, hs₀, hdone, hstays⟩ | ⟨id', l, r, found, owned, begins, stored, repair⟩
  · refine Or.inl ⟨s₀, hs₀, ?_, hdone ▸ hlease⟩
    by_contra hne
    rw [Bool.not_eq_false] at hne
    exact absurd ((hstays hne).symm.trans hfired) (by simp)
  · right
    generalize s.done = d at begins hlease
    cases begins with
    | lease worker trigger ready within first =>
      obtain rfl : id' = id := by simpa [DoneCb.leases] using hlease
      refine ⟨⟨worker, trigger⟩, repair, _, Node.find_append found stored rfl, ?_⟩
      exact ((Transition.lease worker ready within).owner_on).trans owned
    | exhausted | parked | expired | nacked | done => cases hlease

/-- What is undecided while anything but a lease call is handled was so before. -/
theorem Inside.undecided_before (hin : Inside K d c e t m)
    (ht : ∀ worker, t ≠ .input (.lease worker))
    {id : JobId} {q : Nat} (hu : m.undecided id q) : (c.node e).undecided id q :=
  hin.path.keeps (P := fun n => ∀ id q, n.undecided id q → (c.node e).undecided id q)
    (fun _ _ hmove hs id q hu => by
      rcases hmove.undecided_cases hu with hold | ⟨⟨worker, hlease⟩, _⟩
      · exact hs id q hold
      · exact absurd hlease (ht worker))
    (fun _ _ hu => hu) id q hu

theorem Node.undecided.lt {n : Node} {id : JobId} {q : Nat} (h : n.undecided id q) :
    q < n.qstates.length := by
  rcases h with ⟨s, hs, _⟩
  exact (List.getElem?_eq_some_iff.mp hs).1

/-- A node that waits for the quorum of a lease owns the job, and nobody has confirmed the
    copy. -/
def Waiting (n : Node) : Prop :=
  ∀ id q, n.undecided id q → (∃ l, n.find id = some l ∧ l.owner = n.self) ∧
    ∀ mask, n.repair.lookup id = some mask → mask = 0

/-- The call a confirmation finishes, and what the condition says of it. -/
theorem Inside.confirmation (hin : Inside K d c e t m) (hK : Repairable c e t) {id : JobId}
    {slot : Nat} {l : Job} (h : Confirms t (c.node e) id slot) (hl : (c.node e).find id = some l)
    (ho : l.owner = e) :
    ∃ src dst boot reqId asked body call,
    t = .packet (.response src dst boot reqId asked kCreated body) ∧
      (c.node e).calls.lookup reqId = some call ∧ call.cont.confirms = some (id, slot) ∧
      asked.carries l ∧ ∀ q, (c.node e).undecided id q → call.cont.commit = some q := by
  -- Whatever the call is about, a positive reply meets the condition.
  have hask : ∀ k st body, Answers t (c.node e) k st body → k.confirms = some (id, slot) →
      st = kCreated ∨ st = kDuplicate →
      ∃ src dst boot reqId asked body call,
        t = .packet (.response src dst boot reqId asked kCreated body) ∧
        (c.node e).calls.lookup reqId = some call ∧ call.cont.confirms = some (id, slot) ∧
        asked.carries l ∧ ∀ q, (c.node e).undecided id q → call.cont.commit = some q := by
    intro k st body hans hk hok
    rcases hans with ⟨src, dst, boot, reqId, asked, call, rfl, hcall, rfl⟩
    rcases hK.confirms hok call hcall (id, slot) hk l hl ho with ⟨hcar, hund⟩
    -- No full copy and no record is answered as a duplicate.
    have hst : st = kCreated := by
      refine hok.resolve_right (fun hdup => ?_)
      have hfits := (hin.finished rfl hcall).2.1
      subst hdup
      cases asked with
      | replicate | apply => exact hfits.1 rfl
      | fwdSubmit | claim | resync | fwdAck | fwdStatus | drainHandoff => exact hcar
    subst hst
    exact ⟨src, dst, boot, reqId, asked, body, call, rfl, hcall, hk, hcar,
      fun q hu => hund q hu.lt hu⟩
  cases h with
  | replicate st body ok answers => exact hask _ st body answers rfl ok
  | apply member r q body answers => exact hask _ kCreated body answers rfl (Or.inl rfl)

/-- Where a slot is marked, no lease of the job waits for its quorum any more. -/
theorem Inside.marked_decided (hin : Inside K d c e t m) (hK : Repairable c e t) {id : JobId}
    {slot q : Nat} {l : Job} (h : Confirms t (c.node e) id slot) (hl : (c.node e).find id = some l)
    (ho : l.owner = e) (settles : Settles t (c.node e) m id slot) : ¬ m.undecided id q := by
  intro hu
  rcases hin.confirmation hK h hl ho with
    ⟨src, dst, boot, reqId, asked, body, ⟨peer, deadline, cont⟩, rfl, hcall, hk, _, hund⟩
  have hq := hund q (hin.undecided_before (fun _ hne => by cases hne) hu)
  cases cont with
  | apply id' slot' member r q' =>
    cases hk
    cases hq
    rcases hu with ⟨s, hs, hfired, _⟩
    have hfired' := settles member r q body ⟨src, dst, boot, reqId, asked, _, rfl, hcall, rfl⟩ s hs
    exact absurd (hfired'.symm.trans hfired) (by simp)
  | fwdSubmit | replicate | fwdAck | claim | resync | drainHandoff | fwdStatus => cases hq

/-- Nothing takes a job from a node that waits for the quorum of a lease of it. -/
theorem Inside.owner_kept (hin : Inside K d c e t m) (hK : Repairable c e t) {r : Record} {l : Job}
    {q : Nat} (hw : Writes t (c.node e) m r) (hl : m.find r.jobId = some l) (ho : l.owner = e)
    (hu : m.undecided r.jobId q) : (r.on l).owner = e := by
  have hkeep : r.full = none → r.isTakeover = false → (r.on l).owner = e := fun hf ht =>
    (r.on_owner_of_not_takeover l hf ht).trans ho
  cases r with
  | submit b => exact absurd (Node.held_of_find hl) (hin.mint_unheld hw)
  | replicate j =>
    rw [Record.on]
    split
    case isTrue hadv =>
      rcases hw.brings with ⟨hbrings, hfirst⟩
      rw [Node.find, hfirst] at hl
      have hwait := hK.copies j hbrings (fun l' hl' => by rwa [Option.some.inj (hl'.symm.trans hl)])
      have hold := hin.undecided_before (fun _ hne => by rw [hne] at hbrings; cases hbrings) hu
      exact absurd hold (hwait.2.1 q hold.lt)
    case isFalse => exact ho
  | takeover id epoch o =>
    rcases hin.taken_cases hw with ⟨rfl, _⟩ | ⟨ctx, l', trigger, asked, _, _, found, higher, first⟩
    · rw [Record.on]
      split
      · exact hin.self_eq
      · exact ho
    · rcases Trigger.eq_of_ctx trigger with ⟨dst, ht⟩
      rw [asked] at ht
      rw [Node.find, first] at found
      have hgrants := hK.grants
      simp only [GrantsWait, ht] at hgrants
      have hold := hin.undecided_before (fun _ hne => by rw [hne] at ht; cases ht) hu
      exact absurd hold ((hgrants l' found higher).2 q hold.lt)
  | lease | done | expire | deadLetter => exact hkeep rfl rfl

theorem waiting : Always Repairable d (fun w => ∀ e, Waiting (w e)) := by
  refine always_of_node (Q := fun _ n => Waiting n) (fun _ h => h)
    (fun e id q hu => by rcases hu with ⟨s, hs, _⟩; cases hs)
    (fun {c e t m m'} hin _ hm _ hmove => ?_)
  have hself := hmove.self_eq.1
  intro id q hu
  rcases hmove.undecided_cases hu with hold | ⟨_, hrep, l, hl, ho⟩
  swap
  · refine ⟨⟨l, hl, ho.trans hself.symm⟩, fun mask hmask => ?_⟩
    rw [hrep, AList.lookup_insert] at hmask
    exact (Option.some.inj hmask).symm
  rcases hm id q hold with ⟨⟨l, hl, ho⟩, hmask⟩
  have hme := hin.self_eq
  have howner : ∃ l, m'.find id = some l ∧ l.owner = m'.self := by
    rw [hself]
    cases hmove.table_step with
    | same htab => exact ⟨l, by rw [Node.find, htab]; exact hl, ho⟩
    | write r hw htab =>
      by_cases hid : r.jobId = id
      · subst hid
        refine ⟨r.on l, ?_, (hin.owner_kept hin.allowed hw hl (ho.trans hme) hold).trans hme.symm⟩
        rw [Node.find, htab]
        exact find_append_of_found m.store rfl hl
      · refine ⟨l, ?_, ho⟩
        rw [Node.find, htab, Table.find_apply_of_ne _ _ _ hid]
        exact hl
    | restart _ _ _ _ states =>
      rcases hu with ⟨s, hs, _⟩
      rw [states] at hs
      cases hs
  refine ⟨howner, fun mask hlook => ?_⟩
  cases hmove.repair_step with
  | same hrep => exact hmask mask (hrep ▸ hlook)
  | passive r hpass hrep => exact hmask mask (hrep ▸ hlook)
  | drop id' j found other hrep => exact hmask mask (lookup_erase_cases (hrep ▸ hlook)).2
  | zero id' hrep =>
    rcases lookup_insert_cases (hrep ▸ hlook) with ⟨_, rfl⟩ | ⟨_, hprev⟩
    · rfl
    · exact hmask mask hprev
  | mark id' slot confirms first settles hrep =>
    by_cases hid : id = id'
    · subst hid
      rw [Node.find, first] at hl
      exact absurd hold
        (hin.marked_decided hin.allowed confirms hl (ho.trans hme) settles)
    · rw [hrep, markReplicaOk_repair_of_ne hid] at hlook
      exact hmask mask hlook
  | restart unconfirmed =>
    rcases howner with ⟨l', hl', ho'⟩
    exact Option.some.inj (hlook.symm.trans (unconfirmed id l' hl' ho'))

/-! ### Takeovers -/

/-- While takeovers may start, a copy another node owns is as it was, and no repair entry of it
    is new. -/
def Untouched (c : Cluster) (e : Endpoint) (n : Node) (id : JobId) : Prop :=
  ∀ l, n.find id = some l → l.owner ≠ e →
    (c.node e).find id = some l ∧ (id ∈ n.repair → id ∈ (c.node e).repair)

theorem seizes_brings {id : JobId} {n : Node} (ht : t.seizes id = true) : t.brings n = none := by
  unfold Trigger.seizes at ht
  split at ht
  · rfl
  · rfl
  · cases ht

theorem Inside.untouched (hin : Inside Repairable d c e t m) {id : JobId}
    (ht : t.seizes id = true) : Untouched c e m id := by
  have hans : ∀ {k st body}, ¬ Answers t (c.node e) k st body :=
    fun h => absurd ht (by simp [h.seizes id])
  -- No request that is applied or stored starts a takeover.
  have hserve : ∀ {n : Node} {ctx : ReqCtx} {r : Record} {body : Reply},
      ¬ Serves t (c.node e) n ctx r body := by
    intro n ctx r body h
    rcases Trigger.eq_of_ctx h.ctx with ⟨dst, rfl⟩
    cases h with
    | copy _ _ asked | apply _ _ _ _ asked | claim _ _ _ _ asked =>
      rw [asked] at ht
      cases ht
  have hstep : ∀ n n', Inside Repairable d c e t n → Move t (c.node e) n n' →
      Untouched c e n id → Untouched c e n' id := by
    intro n n' hn hmove hs l hl ho
    have hwait := waiting.inside hn e
    rw [Function.update_self] at hwait
    have hkeep : n'.store.table.find id = n.store.table.find id → n'.repair = n.repair →
        (c.node e).find id = some l ∧ (id ∈ n'.repair → id ∈ (c.node e).repair) := by
      intro htab hrep
      rw [Node.find, htab] at hl
      rw [hrep]
      exact hs l hl ho
    cases hmove.repair_step with
    | same hrep htab => exact hkeep (by rw [htab]) hrep
    | passive r hpass hrep htab =>
      by_cases hid : r.jobId = id
      swap
      · exact hkeep (by rw [htab, Table.find_apply_of_ne _ _ _ hid]) hrep
      subst hid
      cases hpass with
      | serve ctx _ body serves => exact absurd serves hserve
      | adopt j writes =>
        cases hw : t.brings (c.node e) with
        | none => exact absurd (writes.brings.1.symm.trans hw) (by simp)
        | some _ => exact absurd (seizes_brings ht) (by rw [hw]; simp)
      | unlease id' l' q s epoch leaseSeq worker found state pending isLease =>
        -- The job is the node's own.
        rcases (hwait id' q ⟨s, state, pending, by simp [isLease, DoneCb.leases]⟩).1 with
          ⟨l₀, hl₀, ho₀⟩
        rw [Node.find, htab] at hl
        have hon := Option.some.inj
          ((find_append_of_found n.store (r := .expire id' l'.epoch l'.leaseSeq) rfl hl₀).symm.trans
          hl)
        rw [← hon, Record.on_owner_of_not_takeover _ _ rfl rfl] at ho
        exact absurd (ho₀.trans hn.self_eq) ho
      | seize id' l' epoch found other active trigger =>
        rw [Node.find, htab] at hl
        have hon := Option.some.inj
          ((find_append_of_found n.store (r := .takeover id' epoch n.self) rfl found).symm.trans hl)
        rw [Record.on] at hon
        split at hon
        · rw [← hon] at ho
          exact absurd hn.self_eq ho
        · rw [hrep, ← hon]
          exact hs l' found (hon ▸ ho)
    | drop id' j found other hrep htab =>
      rw [Node.find, htab] at hl
      refine ⟨(hs l hl ho).1, fun hmem => (hs l hl ho).2 ?_⟩
      rw [hrep, AList.mem_erase] at hmem
      exact hmem.2
    | zero id' hrep htab owned =>
      have hne : id' ≠ id := by
        rintro rfl
        rcases owned with ⟨j, hj, hjo⟩
        rw [Option.some.inj (hj.symm.trans hl)] at hjo
        exact ho (hjo.trans (hmove.self_eq.1.trans hn.self_eq))
      have hfind : n.find id = some l := by
        rcases htab with htab | ⟨r, hr, htab⟩
        · rw [Node.find, ← htab]
          exact hl
        · rw [Node.find, htab, Table.find_apply_of_ne _ _ _ (by rw [hr]; exact hne)] at hl
          exact hl
      refine ⟨(hs l hfind ho).1, fun hmem => (hs l hfind ho).2 ?_⟩
      rw [hrep, AList.mem_insert] at hmem
      exact hmem.resolve_left (Ne.symm hne)
    | mark id' slot confirms =>
      cases confirms with
      | replicate _ _ _ answers => exact absurd answers hans
      | apply _ _ _ _ answers => exact absurd answers hans
    | restart _ boot trigger =>
      rw [trigger] at ht
      cases ht
  have hpath := hin.path.keeps (P := fun n => Inside Repairable d c e t n ∧ Untouched c e n id)
    (fun n n' hmove hn => ⟨hn.1.tail hmove, hstep n n' hn.1 hmove hn.2⟩)
    ⟨{ hin with path := .refl }, fun l hl _ => ⟨hl, fun h => h⟩⟩
  exact hpath.2

/-! ### Who has confirmed is current -/

/-- A peer has confirmed the owner's copy, or its confirmation is on the way. -/
inductive Vouches (w : World) (a p : Endpoint) (id : JobId) (l : Job) : Prop where
  | bit (mask slot : Nat) (entry : (w a).repair.lookup id = some mask)
      (set : mask.testBit slot = true) (peer : (slot, p) ∈ l.peers a) : Vouches w a p id l
  | reply (reqId slot : Nat) (asked : Request) (body : Reply) (call : PendingCall)
      (sent : .response p a (w a).boot reqId asked kCreated body ∈ (w p).outbox)
      (pending : (w a).calls.lookup reqId = some call)
      (about : call.cont.confirms = some (id, slot)) (carries : asked.carries l) :
      Vouches w a p id l

/-- Who has confirmed, or is about to, has the owner's version. -/
def Current (w : World) : Prop :=
  ∀ a p id l, (w a).find id = some l → l.owner = a → Vouches w a p id l →
    ∃ k, (w p).find id = some k ∧ Agree k l

theorem Vouches.tends {w : World} {a p : Endpoint} {id : JobId} {l : Job}
    (h : Vouches w a p id l) : (w a).tends id := by
  cases h with
  | bit mask slot entry => exact Or.inl (AList.lookup_isSome.mp (by rw [entry]; rfl))
  | reply reqId slot asked body call sent pending about =>
    exact Or.inr ⟨⟨reqId, call⟩,
      AList.mem_lookup_iff.mp pending, by simp only [about, Option.map_some]⟩

/-- A response to this incarnation is the reply to the call that waits for it. -/
theorem Sane.expects {w : World} (h : Sane w) {a p : Endpoint} {reqId : Nat} {asked : Request}
    {st : Status} {body : Reply} {call : PendingCall}
    (sent : .response p a (w a).boot reqId asked st body ∈ (w p).outbox)
    (pending : (w a).calls.lookup reqId = some call) :
    .request a p (w a).boot reqId asked ∈ (w a).outbox ∧ Expects a p asked call.cont := by
  have hsent := (h.wire p).replies a (w a).boot reqId asked st body (by rw [h.names]; exact sent)
  rw [Sent, h.names] at hsent
  rcases (h.wire a).calls reqId call pending with ⟨dst, body', hp, hexp⟩
  have hsame :=
    (h.wire a).unique p dst (w a).boot reqId asked body' (by rw [h.names]; exact hsent) hp
  rw [h.names] at hexp
  rw [hsame.1, hsame.2] at hsent ⊢
  exact ⟨hsent, hexp⟩

/-- The reply to a pending call comes from the member in the slot it confirms, and is about a
    version the node has had. -/
theorem Sane.replied {w : World} (h : Sane w) (hcalls : ∀ e, Calls (w e)) {a p : Endpoint}
    {reqId slot : Nat} {id : JobId} {asked : Request} {st : Status} {body : Reply}
    {call : PendingCall} (sent : .response p a (w a).boot reqId asked st body ∈ (w p).outbox)
    (pending : (w a).calls.lookup reqId = some call)
    (about : call.cont.confirms = some (id, slot)) :
    ∃ j l, Held (w a).store.wal id j ∧ (slot, p) ∈ j.peers a ∧ Held (w a).store.wal id l ∧
      asked.carries l := by
  rcases hcalls a reqId call id slot pending about with ⟨dst, body', j, l, hp, hj, hpeer, hl, hcar⟩
  have hsame := (h.wire a).unique p dst (w a).boot reqId asked body'
    (by rw [h.names]; exact (h.expects sent pending).1) hp
  rw [h.names] at hpeer
  rw [hsame.1, hsame.2]
  exact ⟨j, l, hj, hpeer, hl, hcar⟩

/-- A node with a copy is a member. -/
theorem Reach.member_of_find (h : Reach K d c) {a : Endpoint} {id : JobId} {l : Job}
    (hl : (c.node a).find id = some l) : a ∈ c.members := by
  rw [(reach_sound h).1]
  by_contra hne
  rw [idle_of_not_mem h hne] at hl
  cases hl

/-- A full copy that the owner sends is of the owner's version. -/
theorem Inside.donated (hin : Inside Repairable d c e t m) {a : Endpoint} {j l : Job}
    (hbrings : j ∈ t.brings (c.node e)) (hdonor : a ∈ t.donor)
    (hl : (c.node a).find j.id = some l) (hle : ∀ k ∈ (c.node e).find j.id, k.epoch ≤ j.epoch) :
    Agree j l := by
  have hland := hin.allowed.land
  unfold Trigger.donor at hdonor
  split at hdonor
  case h_1 src dst boot reqId j' =>
    have hjj : j' = j := Option.some.inj hbrings
    subst hjj
    rw [List.mem_singleton.mp hdonor] at hl
    exact (hland hle).1 l hl
  case h_2 => cases hdonor

/-- A record that the owner sends takes the replica's copy to the owner's version. -/
theorem Inside.applied_current (hin : Inside Repairable d c e t m) {ctx : ReqCtx} {r : Record}
    {epoch : Nat} {k l : Job} (trigger : t.ctx = some ctx) (asked : ctx.asked = .apply r)
    (found : (c.node e).find r.jobId = some k) (fence : r.fence = some epoch)
    (unfenced : k.epoch ≤ epoch) (owner : k.owner = ctx.src)
    (hl : (c.node ctx.src).find r.jobId = some l) : Agree (r.on k) l := by
  have hland := hin.allowed.land
  rcases Trigger.eq_of_ctx trigger with ⟨dst, ht⟩
  rw [asked] at ht
  simp only [CopiesLand, ht] at hland
  rcases hland k found epoch fence unfenced owner l hl with ⟨hleaves, hmeets⟩
  exact Record.agree_on hleaves hmeets fence unfenced

/-- A replica whose copy is of the version its owner tends keeps that version. -/
theorem Inside.version_kept (hin : Inside Repairable d c e t m) (hmove : Move t (c.node e) m m')
    {a : Endpoint} {id : JobId} {l k : Job} (hae : a ≠ e) (hl : (c.node a).find id = some l)
    (ho : l.owner = a) (htend : (c.node a).tends id) (hk : m.find id = some k) (hag : Agree k l) :
    ∃ k', m'.find id = some k' ∧ Agree k' l := by
  have hK := hin.allowed
  have hme := hin.self_eq
  have hko : k.owner = a := hag.2.2.2.trans ho
  have hskip : ∀ skip, c.Untended skip id → a ∈ skip := fun skip h => by
    by_contra hne
    exact h a (hin.reach.member_of_find hl) hne htend
  have hsame : m'.store.table.find id = m.store.table.find id → ∃ k', m'.find id = some k' ∧
      Agree k' l :=
    fun h => ⟨k, by rw [Node.find, h]; exact hk, hag⟩
  cases hmove.table_step with
  | same htab => exact hsame (by rw [htab])
  | restart boot trigger first stored =>
    have hrest := hK.restarts
    simp only [RestartsWait, trigger] at hrest
    refine hsame ?_
    rw [stored, Store.find_reopen, Store.log, m.store.replayed]
    cases hlimbo : m.store.limbo with
    | none => rw [Option.toList_none, List.append_nil]
    | some r =>
      have hne : r.jobId ≠ id := by
        rintro rfl
        have hmem := hskip _ (hrest r (by rw [← first]; exact hlimbo))
        exact hae (List.mem_singleton.mp hmem)
      rw [Option.toList_some, replay_snoc, Table.find_apply_of_ne _ _ _ hne]
  | write r hw htab =>
    by_cases hid : r.jobId = id
    swap
    · exact hsame (by rw [htab, Table.find_apply_of_ne _ _ _ hid])
    subst hid
    refine ⟨r.on k, by rw [Node.find, htab]; exact find_append_of_found m.store rfl hk, ?_⟩
    have hother : ∀ l', m.find r.jobId = some l' → l'.owner ≠ m.self := by
      intro l' hl' ho'
      rw [Option.some.inj (hl'.symm.trans hk), hko, hme] at ho'
      exact hae ho'
    -- A full copy is the owner's, or nobody tends the job.
    have hfull : ∀ j, r = .replicate j → Agree (r.on k) l := by
      rintro j rfl
      rcases hw.brings with ⟨hbrings, hfirst⟩
      rw [Node.find, hfirst] at hk
      rw [Record.on]
      split
      case isFalse => exact hag
      case isTrue hadv =>
        have hmem := hskip _ (hK.copies j hbrings
          (fun l' hl' => by rwa [Option.some.inj (hl'.symm.trans hk)])).1
        exact hin.donated hbrings ((List.mem_cons.mp hmem).resolve_left hae) hl
          (fun l' hl' => by rw [Option.some.inj (hl'.symm.trans hk)]; exact jobAdvances_epoch hadv)
    cases hw with
    | mint p cb =>
      exact absurd (Node.held_of_find hk) (hin.mint_unheld (.mint p cb ‹_› ‹_› ‹_› ‹_› ‹_› ‹_›))
    | adopt id j => exact hfull j rfl
    | serve ctx _ body serves =>
      cases serves with
      | copy j => exact hfull j rfl
      | apply _ epoch l' trigger asked fence found unfenced owner first =>
        have hsrc := hin.apply_sender trigger asked owner
        have hkk : k = l' := Option.some.inj (hk.symm.trans found)
        subst hkk
        rw [Node.find, first] at found
        exact hin.applied_current trigger asked found fence unfenced hsrc
          (by rw [← hsrc, hko]; exact hl)
      | claim id proposed l' trigger asked found member higher first =>
        rcases Trigger.eq_of_ctx trigger with ⟨dst, ht⟩
        rw [asked] at ht
        rw [Node.find, first] at found
        have hgrants := hK.grants
        simp only [GrantsWait, ht] at hgrants
        have hmem := hskip _ (hgrants l' found higher).1
        exact absurd (List.mem_singleton.mp hmem) hae
    | begin_ id l' r d found owned begins =>
      exact absurd owned (hother l' (by rw [begins.transition.jobId]; exact found))
    | unlease id l' q s epoch leaseSeq worker found state pending isLease =>
      have hwait := waiting.inside hin e
      rw [Function.update_self] at hwait
      rcases (hwait id q ⟨s, state, pending, by simp [isLease, DoneCb.leases]⟩).1 with
        ⟨l₀, hl₀, ho₀⟩
      exact absurd ho₀ (hother l₀ hl₀)
    | seize id l' found other active unclaimed trigger =>
      have hold := (hin.untouched trigger l' found (by rw [← hme]; exact other)).1
      have hnone := hK.takeovers ⟨id, l'⟩ (AList.mem_lookup_iff.mp hold) trigger
        (by rw [← hme]; exact other) active
      cases hskip _ hnone
    | inherit id st l' r ripe found owned inherits =>
      exact absurd owned (hother l' (by rw [(inherits_spec inherits).1]; exact found))

/-- A replica that confirms what the owner is at has the owner's version. -/
theorem Inside.reply_current (hin : Inside Repairable d c e t m) {src a : Endpoint}
    {boot reqId slot : Nat} {id : JobId} {l : Job} {asked : Request} {body : Reply}
    {call : PendingCall} (hl : (c.node a).find id = some l)
    (hnew : Sends t (c.node e) m m' (.response src a boot reqId asked kCreated body))
    (hexp : Expects a e asked call.cont) (about : call.cont.confirms = some (id, slot)) :
    ∃ k, m'.find id = some k ∧ Agree k l := by
  have hwire := wire.inside hin e
  rw [Function.update_self] at hwire
  -- The request is a full copy or a record of this job.
  have hasked : (∃ j, asked = .replicate j ∧ j.id = id) ∨ ∃ r, asked = .apply r ∧ r.jobId = id := by
    generalize call.cont = k at hexp about
    cases hexp with
    | replicate j =>
      cases about
      exact Or.inl ⟨j, rfl, rfl⟩
    | apply r =>
      cases about
      exact Or.inr ⟨r, rfl, rfl⟩
    | fwdSubmit | fwdAck | claim | resync | drainHandoff | fwdStatus => cases about
  rcases hnew.confirms hwire (hasked.imp (fun ⟨j, h, _⟩ => ⟨j, h⟩) (fun ⟨r, h, _⟩ => ⟨r, h⟩)) with
    ⟨ctx, r, rfl, hctx, serves, stored⟩
  cases serves with
  | copy j trigger asked' unfenced first =>
    have hid : j.id = id := by
      rcases hasked with ⟨j', h, hid⟩ | ⟨r, h, _⟩
      · cases asked'.symm.trans (hctx.trans h)
        exact hid
      · cases asked'.symm.trans (hctx.trans h)
    subst hid
    rcases Trigger.eq_of_ctx trigger with ⟨dst, ht⟩
    rw [asked'] at ht
    have hland := hin.allowed.land
    simp only [CopiesLand, ht] at hland
    have hfind : (c.node e).find j.id = m.find j.id := by rw [Node.find, Node.find, first]
    rw [hfind] at hland
    rcases hland unfenced with ⟨hfresh, hmeet⟩
    have hj := hfresh l hl
    have happ : m'.find j.id = (Record.replicate j).effect (m.find j.id) := by
      rw [Node.find, stored]
      exact Table.find_apply_self m.store.table (.replicate j)
    cases hk : m.find j.id with
    | none =>
      rw [hk] at happ
      exact ⟨j, happ, hj⟩
    | some k =>
      rw [hk] at happ
      refine ⟨_, happ, ?_⟩
      rw [Record.on]
      split
      · exact hj
      · exact ((hmeet k hk).resolve_right ‹_›).trans hj
  | apply _ epoch k trigger asked' fence found unfenced owner first =>
    have hid : r.jobId = id := by
      rcases hasked with ⟨j, h, _⟩ | ⟨r', h, hid⟩
      · cases asked'.symm.trans (hctx.trans h)
      · cases asked'.symm.trans (hctx.trans h)
        exact hid
    subst hid
    refine ⟨r.on k, Node.find_append found stored rfl, ?_⟩
    have hsrc := hin.apply_sender trigger asked' owner
    rw [Node.find, first] at found
    exact hin.applied_current trigger asked' found fence unfenced hsrc hl
  | claim id' proposed k trigger asked' =>
    rcases hasked with ⟨j, h, _⟩ | ⟨r, h, _⟩ <;> cases asked'.symm.trans (hctx.trans h)

/-- A replica whose reply confirms a slot has the owner's version. -/
theorem Inside.confirmed_current (hin : Inside Repairable d c e t m) (hc : Current c.node)
    {id : JobId} {slot : Nat} {l : Job} {p : Endpoint} (h : Confirms t (c.node e) id slot)
    (hl : (c.node e).find id = some l) (ho : l.owner = e) (hp : (slot, p) ∈ l.peers e) :
    ∃ k, (c.node p).find id = some k ∧ Agree k l := by
  have hsane := sane.reach hin.reach
  rcases hin.confirmation hin.allowed h hl ho with
    ⟨src, dst, boot, reqId, asked, body, call, rfl, hcall, hk, hcar, _⟩
  rcases hin.delivered _ rfl with ⟨hdst, x, hx⟩
  change dst = e at hdst
  subst hdst
  have hname : src = x := ((hsane.wire x).src _ hx).trans (hsane.names x)
  subst hname
  have hboot : boot = (c.node dst).boot :=
    hin.allowed.matched (AList.lookup_isSome.mp (hcall ▸ rfl))
  subst hboot
  rcases hsane.replied (calls_to.reach hin.reach) hx hcall hk with ⟨j, _, hj, hpeer, _⟩
  have hsame := hsane.same (hj.mono (c.node dst).store.wal_prefix_log) (Node.held_of_find hl)
  rw [hsame.peers] at hpeer
  have hps : p = src := (peers_slot hp).trans (peers_slot hpeer).symm
  subst hps
  exact hc dst p id l hl ho (.reply reqId slot asked body call hx hcall hk hcar)

theorem markReplicaOk_lookup {n : Node} {id : JobId} {slot mask : Nat}
    (h : (n.markReplicaOk id slot).repair.lookup id = some mask) :
    ∃ mask₀, n.repair.lookup id = some mask₀ ∧ mask = mask₀ ||| 2 ^ slot := by
  unfold Node.markReplicaOk at h
  cases hl : n.repair.lookup id with
  | none =>
    simp only [hl] at h
    cases h
  | some mask₀ =>
    simp only [hl] at h
    split at h
    · rw [AList.lookup_erase] at h
      cases h
    · rw [AList.lookup_insert] at h
      exact ⟨mask₀, rfl, (Option.some.inj h).symm⟩

/-- A record that leaves the owner's bookkeeping alone leaves an owned copy alone, unless a
    lease of the job waits for its quorum or the job is in no `repair`. -/
theorem Inside.passive_kept (hin : Inside Repairable d c e t m) {r : Record} {l : Job}
    (h : Passive t (c.node e) m r) (hl : (m.store.table.apply r).find r.jobId = some l)
    (ho : l.owner = e) :
    m.find r.jobId = some l ∨ (∃ q, m.undecided r.jobId q) ∨
      r.jobId ∉ m.repair ∧ r.jobId ∉ (c.node e).repair := by
  have hK := hin.allowed
  rw [Table.find_apply_self] at hl
  -- A full copy that is installed names another owner.
  have hfull : ∀ j, r = .replicate j → Writes t (c.node e) m r → m.find r.jobId = some l := by
    rintro j rfl hw
    rcases hw.brings with ⟨hbrings, hfirst⟩
    have hfind : (c.node e).find j.id = m.find j.id := by rw [Node.find, Node.find, hfirst]
    have hwait := hK.copies j hbrings
    rw [hfind] at hwait
    change (Record.replicate j).effect (m.find j.id) = some l at hl
    change m.find j.id = some l
    cases hk : m.find j.id with
    | none =>
      rw [hk] at hl hwait
      rw [← Option.some.inj hl] at ho
      exact absurd ho (hwait (fun l' hl' => by cases hl')).2.2
    | some k =>
      rw [hk, Record.effect, Option.some.injEq, Record.on] at hl
      rw [hk] at hwait
      split at hl
      case isTrue hadv =>
        rw [← hl] at ho
        exact absurd ho (hwait (fun l' hl' => by rwa [← Option.some.inj hl'])).2.2
      case isFalse => rw [hl]
  cases h with
  | serve ctx _ body serves =>
    have hw : Writes t (c.node e) m r := .serve ctx r body serves
    rcases hin.served_owner serves hl with ⟨j, rfl⟩ | hne
    · exact Or.inl (hfull j rfl hw)
    · exact absurd ho hne
  | adopt j writes => exact Or.inl (hfull j rfl writes)
  | unlease id k q s epoch leaseSeq worker found state pending isLease =>
    exact Or.inr (Or.inl ⟨q, s, state, pending, by simp [isLease, DoneCb.leases, Record.jobId]⟩)
  | seize id k epoch found other active trigger =>
    -- The job is in no node's `repair`, so not in this one's.
    have hold := hin.untouched trigger k found (by rw [← hin.self_eq]; exact other)
    have hnone := hK.takeovers ⟨id, k⟩ (AList.mem_lookup_iff.mp hold.1) trigger
      (by rw [← hin.self_eq]; exact other) active
    have hout : id ∉ (c.node e).repair := fun hmem =>
      hnone e (hin.reach.member_of_find hold.1) (by simp) (Or.inl hmem)
    exact Or.inr (Or.inr ⟨fun hmem => hout (hold.2 hmem), hout⟩)

/-- Of a job's confirmed slots, at the node that keeps them. -/
theorem Inside.bit_current (hin : Inside Repairable d c e t m) (hc : Current c.node)
    (hmid : Current (Function.update c.node e m)) (hmove : Move t (c.node e) m m') {id : JobId}
    {l : Job} {p : Endpoint} {mask slot : Nat} (hl : m'.find id = some l) (ho : l.owner = e)
    (entry : m'.repair.lookup id = some mask) (set : mask.testBit slot = true)
    (peer : (slot, p) ∈ l.peers e) : ∃ k, (c.node p).find id = some k ∧ Agree k l := by
  have hpe : p ≠ e := (mem_peers peer).1
  -- Where neither the copy nor the bit is new.
  have hold : ∀ mask', m.find id = some l → m.repair.lookup id = some mask' →
      mask'.testBit slot = true → ∃ k, (c.node p).find id = some k ∧ Agree k l := by
    intro mask' hl' hentry hset
    rcases hmid e p id l (by rw [Function.update_self]; exact hl') ho
      (.bit mask' slot (by rw [Function.update_self]; exact hentry) hset peer) with ⟨k, hk, hag⟩
    rw [Function.update_of_ne hpe] at hk
    exact ⟨k, hk, hag⟩
  have hzero : mask ≠ 0 := by
    rintro rfl
    simp at set
  cases hmove.repair_step with
  | same hrep htab =>
    rw [Node.find, htab] at hl
    exact hold mask hl (hrep ▸ entry) set
  | passive r hpass hrep htab =>
    rw [hrep] at entry
    rw [Node.find, htab] at hl
    by_cases hid : r.jobId = id
    · subst hid
      rcases hin.passive_kept hpass hl ho with hkept | ⟨q, hu⟩ | ⟨hout, _⟩
      · exact hold mask hkept entry set
      · have hwait := waiting.inside hin e r.jobId q
        rw [Function.update_self] at hwait
        exact absurd ((hwait hu).2 mask entry) hzero
      · exact absurd (AList.lookup_isSome.mp (by rw [entry]; rfl)) hout
    · rw [Table.find_apply_of_ne _ _ _ hid] at hl
      exact hold mask hl entry set
  | drop id' j found other hrep htab =>
    rw [Node.find, htab] at hl
    exact hold mask hl (lookup_erase_cases (hrep ▸ entry)).2 set
  | zero id' hrep htab =>
    rcases lookup_insert_cases (hrep ▸ entry) with ⟨_, hmask⟩ | ⟨hne, hentry⟩
    · exact absurd hmask hzero
    · refine hold mask ?_ hentry set
      rcases htab with htab | ⟨r, hr, htab⟩
      · rw [Node.find, ← htab]
        exact hl
      · rw [Node.find, htab, Table.find_apply_of_ne _ _ _ (by rw [hr]; exact Ne.symm hne)] at hl
        exact hl
  | mark id' slot' confirms first settles hrep htab =>
    rw [Node.find, htab] at hl
    by_cases hid : id = id'
    swap
    · rw [hrep, markReplicaOk_repair_of_ne hid] at entry
      exact hold mask hl entry set
    subst hid
    rw [hrep] at entry
    rcases markReplicaOk_lookup entry with ⟨mask₀, hentry, rfl⟩
    rw [Nat.testBit_or, Bool.or_eq_true, Nat.testBit_two_pow, decide_eq_true_eq] at set
    rcases set with hset | rfl
    · exact hold mask₀ hl hentry hset
    · rw [first] at hl
      exact hin.confirmed_current hc confirms hl ho peer
  | restart unconfirmed =>
    have hz := unconfirmed id l hl (by rw [hmove.self_eq.1, hin.self_eq]; exact ho)
    exact absurd (Option.some.inj (entry.symm.trans hz)) hzero

/-- Of the replies on the way to a node, where that node moves. -/
theorem Inside.pending_current (hin : Inside Repairable d c e t m)
    (hmid : Current (Function.update c.node e m)) (hmove : Move t (c.node e) m m') {id : JobId}
    {l : Job} {p : Endpoint} {reqId slot : Nat} {asked : Request} {body : Reply}
    {call : PendingCall} (hl : m'.find id = some l) (ho : l.owner = e) (hpe : p ≠ e)
    (sent : .response p e m'.boot reqId asked kCreated body ∈ (c.node p).outbox)
    (pending : m'.calls.lookup reqId = some call) (about : call.cont.confirms = some (id, slot))
    (carries : asked.carries l) : ∃ k, (c.node p).find id = some k ∧ Agree k l := by
  have hsane := sane.inside hin
  have hwire := hsane.wire e
  have hlater := (onward.inside hin e).mono (Function.update c.node e m e).store.wal_prefix_log
  rw [Function.update_self] at hwire hlater
  -- The call was pending before the move: no reply to a new one can be on the way.
  have hold : m.calls.lookup reqId = some call ∧ m'.boot = m.boot := by
    rcases hmove.call_cases pending with ⟨hboot, hprev | ⟨_, _, rfl, _⟩⟩
    · exact ⟨hprev, hboot⟩
    · rw [hboot] at sent
      have hasked := (hsane.wire p).replies e m.boot m.nextReq asked kCreated body
        (by rw [hsane.names, Function.update_of_ne hpe]; exact sent)
      rw [Sent, hsane.names, Function.update_self] at hasked
      have hlt := (hwire.issued p m.boot m.nextReq asked (by rw [hin.self_eq]; exact hasked)).2 rfl
      exact absurd hlt (Nat.lt_irrefl _)
  rcases hold with ⟨hpend, hboot⟩
  rw [hboot] at sent
  have hsent : .response p e (Function.update c.node e m e).boot reqId asked kCreated body ∈
      (Function.update c.node e m p).outbox := by
    rw [Function.update_self, Function.update_of_ne hpe]
    exact sent
  have hcall : (Function.update c.node e m e).calls.lookup reqId = some call := by
    rw [Function.update_self]
    exact hpend
  -- If the request carries the version before the move, nothing is new.
  have hvouch : ∀ l₀, m.find id = some l₀ → l₀.owner = e → asked.carries l₀ →
      ∃ k, (c.node p).find id = some k ∧ Agree k l₀ := by
    intro l₀ hl₀ ho₀ hcar₀
    rcases hmid e p id l₀ (by rw [Function.update_self]; exact hl₀) ho₀
      (.reply reqId slot asked body call hsent hcall about hcar₀) with ⟨k, hk, hag⟩
    rw [Function.update_of_ne hpe] at hk
    exact ⟨k, hk, hag⟩
  -- It carries a version of the past, which the copy is not behind.
  rcases hsane.replied (calls_to.inside hin) hsent hcall about with ⟨_, l₁, _, _, hl₁, hcar₁⟩
  rw [Function.update_self] at hl₁
  rcases hlater.held (R := Onward e) (Onward.refl e) (fun h h' => h.trans h') hl₁ with
    ⟨l₀, hl₀, hlate⟩
  rw [← m.store.replayed] at hl₀
  have hsame := Request.carries_stage hcar₁ carries
  cases hmove.table_step with
  | same htab =>
    rw [Node.find, htab] at hl
    exact hvouch l hl ho carries
  | restart _ _ _ _ _ calls =>
    rw [calls] at pending
    cases pending
  | write r hw htab =>
    rw [Node.find, htab] at hl
    by_cases hid : r.jobId = id
    swap
    · rw [Table.find_apply_of_ne _ _ _ hid] at hl
      exact hvouch l hl ho carries
    subst hid
    have hon : r.on l₀ = l :=
      Option.some.inj ((find_append_of_found m.store rfl hl₀).symm.trans hl)
    have hle := hlate.1
    rcases hon ▸ hin.moved hin.allowed hw hl₀ with hag | ⟨_, hother | hlt | ⟨he, ho₀, hst⟩⟩
    · rcases hvouch l₀ hl₀ (hag.2.2.2.symm.trans ho) (Request.carries_of_agree carries hag) with
        ⟨k, hk, hkl⟩
      exact ⟨k, hk, hkl.trans hag.symm⟩
    · exact absurd ho hother
    · omega
    · have hback := (hlate.2 (by omega) ho₀).2
      rw [hsame.2] at hback
      exact absurd hst (not_lt.mpr hback)

/-- Who has confirmed, or is about to, has the owner's version. -/
theorem current : Always Repairable d Current := by
  refine always_of_moves (fun a p id l hl => by cases hl) (fun {c e t m m'} hin hc hmid hmove => ?_)
  intro a p id l hl ho hv
  by_cases hae : a = e
  · -- The owner moves.
    subst hae
    have hsane := sane.inside (hin.tail hmove)
    have hpe : p ≠ a := by
      cases hv with
      | bit mask slot entry set peer => exact (mem_peers peer).1
      | reply reqId slot asked body call sent pending about =>
        rcases hsane.replied (calls_to.inside (hin.tail hmove)) sent pending about with
          ⟨j, _, _, hpeer, _⟩
        exact (mem_peers hpeer).1
    rw [Function.update_of_ne hpe]
    rw [Function.update_self] at hl
    cases hv with
    | bit mask slot entry set peer =>
      rw [Function.update_self] at entry
      exact hin.bit_current hc hmid hmove hl ho entry set peer
    | reply reqId slot asked body call sent pending about carries =>
      rw [Function.update_self] at pending
      rw [Function.update_self, Function.update_of_ne hpe] at sent
      exact hin.pending_current hmid hmove hl ho hpe sent pending about carries
  · rw [Function.update_of_ne hae] at hl
    by_cases hpe : p = e
    swap
    · -- Neither moves.
      rw [Function.update_of_ne hpe]
      refine hc a p id l hl ho ?_
      cases hv with
      | bit mask slot entry set peer =>
        rw [Function.update_of_ne hae] at entry
        exact .bit mask slot entry set peer
      | reply reqId slot asked body call sent pending about carries =>
        rw [Function.update_of_ne hae] at pending
        rw [Function.update_of_ne hae, Function.update_of_ne hpe] at sent
        exact .reply reqId slot asked body call sent pending about carries
    -- The replica moves.
    subst hpe
    rw [Function.update_self]
    have hkept : Vouches (Function.update c.node p m) a p id l →
        ∃ k, m'.find id = some k ∧ Agree k l := by
      intro hprev
      have htend := hprev.tends
      rw [Function.update_of_ne hae] at htend
      rcases hmid a p id l (by rw [Function.update_of_ne hae]; exact hl) ho hprev with ⟨k, hk, hag⟩
      rw [Function.update_self] at hk
      exact hin.version_kept hmove hae hl ho htend hk hag
    cases hv with
    | bit mask slot entry set peer =>
      rw [Function.update_of_ne hae] at entry
      exact hkept (.bit mask slot (by rw [Function.update_of_ne hae]; exact entry) set peer)
    | reply reqId slot asked body call sent pending about carries =>
      have hexp := ((sane.inside (hin.tail hmove)).expects sent pending).2
      rw [Function.update_of_ne hae] at pending
      rw [Function.update_of_ne hae, Function.update_self] at sent
      rcases hmove.response_cases sent with hold | hnew
      · refine hkept (.reply reqId slot asked body call ?_ ?_ about carries)
        · rw [Function.update_of_ne hae, Function.update_self]
          exact hold
        · rw [Function.update_of_ne hae]
          exact pending
      · exact hin.reply_current hl hnew hexp about

/-! ### Repaired -/

theorem testBit_foldl_or {x : Nat × Endpoint} (l : List (Nat × Endpoint)) (w : Nat)
    (h : x ∈ l ∨ w.testBit x.1 = true) :
    (l.foldl (fun w s => w ||| 2 ^ s.1) w).testBit x.1 = true := by
  induction l generalizing w with
  | nil => exact h.resolve_left (by simp)
  | cons s l ih =>
    refine ih _ ?_
    rcases h with hmem | hset
    · rcases List.mem_cons.mp hmem with rfl | hmem
      · exact Or.inr (by rw [Nat.testBit_or, Nat.testBit_two_pow_self, Bool.or_true])
      · exact Or.inl hmem
    · exact Or.inr (by rw [Nat.testBit_or, hset, Bool.true_or])

/-- An entry goes when every peer's slot is marked. -/
theorem markReplicaOk_erases {n : Node} {id : JobId} {slot : Nat} {l : Job} (hmem : id ∈ n.repair)
    (hout : id ∉ (n.markReplicaOk id slot).repair) (hl : n.find id = some l) {x : Nat × Endpoint}
    (hx : x ∈ l.peers n.self) :
    ∃ mask, n.repair.lookup id = some mask ∧ (mask.testBit x.1 = true ∨ x.1 = slot) := by
  rcases Option.isSome_iff_exists.mp (AList.lookup_isSome.mpr hmem) with ⟨mask, hmask⟩
  refine ⟨mask, hmask, ?_⟩
  simp only [Node.markReplicaOk, hmask] at hout
  split at hout
  case isTrue hfull =>
    have hwanted : (n.wantedMask id).testBit x.1 = true := by
      simp only [Node.wantedMask, hl]
      exact testBit_foldl_or _ _ (Or.inl hx)
    rw [← hfull, Nat.testBit_and, Nat.testBit_or, Bool.and_eq_true, Bool.or_eq_true,
      Nat.testBit_two_pow, decide_eq_true_eq] at hwanted
    exact hwanted.1.imp (fun h => h) Eq.symm
  case isFalse => exact absurd ((AList.mem_insert _).mpr (Or.inl rfl)) hout

/-- A job is still in `repair`; or, if the node owns it, no lease of it waits for its quorum and
    every other replica has the node's version. -/
def Repaired (c : Cluster) (e : Endpoint) (id : JobId) (n : Node) : Prop :=
  id ∈ n.repair ∨ ∀ l, n.find id = some l → l.owner = e → (∀ q, ¬ n.undecided id q) ∧
    ∀ x ∈ l.replicas.pinned, x ≠ e → ∃ k, (c.node x).find id = some k ∧ Agree k l

/-- A mark leaves the entry there, or every other replica has the node's version. -/
theorem Inside.repaired_mark (hin : Inside Repairable d c e t m) {id : JobId} {slot : Nat}
    (hmem : id ∈ m.repair) (confirms : Confirms t (c.node e) id slot)
    (first : m.store = (c.node e).store) (settles : Settles t (c.node e) m id slot)
    (hrep : m'.repair = (m.markReplicaOk id slot).repair) (htab : m'.store.table = m.store.table)
    (hdecided : ∀ q, m'.undecided id q → m.undecided id q) : Repaired c e id m' := by
  by_cases hstay : id ∈ m'.repair
  · exact Or.inl hstay
  refine Or.inr (fun l hl ho => ?_)
  rw [hrep] at hstay
  rw [Node.find, htab] at hl
  have hl₀ := hl
  rw [first] at hl₀
  refine ⟨fun q hu => hin.marked_decided hin.allowed confirms hl₀ ho settles (hdecided q hu),
    fun x hx hxe => ?_⟩
  rcases mem_peers_of_pinned hx hxe with ⟨s, hs⟩
  rcases markReplicaOk_erases hmem hstay hl (by rw [hin.self_eq]; exact hs) with ⟨mask, hmask, hset⟩
  have hcur := current.reach hin.reach
  rcases hset with hset | rfl
  · -- The slot was marked before.
    rcases current.inside hin e x id l (by rw [Function.update_self]; exact hl) ho
      (.bit mask s (by rw [Function.update_self]; exact hmask) hset hs) with ⟨k, hk, hag⟩
    rw [Function.update_of_ne hxe] at hk
    exact ⟨k, hk, hag⟩
  · exact hin.confirmed_current hcur confirms hl₀ ho hs

/-- Once a job of this node is out of `repair` it stays repaired while the trigger is handled. -/
theorem Inside.repaired_move (hin : Inside Repairable d c e t m) {id : JobId}
    (hentry : id ∈ (c.node e).repair) (hmove : Move t (c.node e) m m')
    (h : Repaired c e id m) : Repaired c e id m' := by
  by_cases hstay : id ∈ m'.repair
  · exact Or.inl hstay
  have hdecided : ∀ q, m'.undecided id q → m.undecided id q := by
    intro q hu
    rcases hmove.undecided_cases hu with hold | ⟨_, hrep, _⟩
    · exact hold
    · exact absurd (by rw [hrep]; exact (AList.mem_insert _).mpr (Or.inl rfl)) hstay
  -- Where the entry was gone before, the copy has to be the same.
  have hgone : id ∉ m.repair → (∀ l, m'.find id = some l → l.owner = e → m.find id = some l) →
      Repaired c e id m' := by
    intro hout hsame
    refine Or.inr (fun l hl ho => ?_)
    rcases h.resolve_left hout l (hsame l hl ho) ho with ⟨hnone, hall⟩
    exact ⟨fun q hu => hnone q (hdecided q hu), hall⟩
  cases hmove.repair_step with
  | same hrep htab => exact hgone (hrep ▸ hstay) (fun l hl _ => by rwa [Node.find, htab] at hl)
  | passive r hpass hrep htab =>
    have hout : id ∉ m.repair := hrep ▸ hstay
    refine hgone hout (fun l hl ho => ?_)
    rw [Node.find, htab] at hl
    by_cases hid : r.jobId = id
    swap
    · rwa [Table.find_apply_of_ne _ _ _ hid] at hl
    subst hid
    rcases hin.passive_kept hpass hl ho with hkept | ⟨q, hu⟩ | ⟨_, hnone⟩
    · exact hkept
    · -- A lease that waits for its quorum is of a job the node owns.
      have hwait := waiting.inside hin e r.jobId q
      rw [Function.update_self] at hwait
      rcases (hwait hu).1 with ⟨l₀, hl₀, ho₀⟩
      exact absurd hu ((h.resolve_left hout l₀ hl₀ (ho₀.trans hin.self_eq)).1 q)
    · exact absurd hentry hnone
  | drop id' j found other hrep htab =>
    refine Or.inr (fun l hl ho => ?_)
    rw [Node.find, htab] at hl
    by_cases hid : id = id'
    · subst hid
      rw [Option.some.inj (found.symm.trans hl)] at other
      exact absurd (ho.trans hin.self_eq.symm) other
    · have hout : id ∉ m.repair := fun hmem =>
        hstay (by rw [hrep, AList.mem_erase]; exact ⟨hid, hmem⟩)
      rcases h.resolve_left hout l hl ho with ⟨hnone, hall⟩
      exact ⟨fun q hu => hnone q (hdecided q hu), hall⟩
  | zero id' hrep htab =>
    rw [hrep, AList.mem_insert, not_or] at hstay
    refine hgone hstay.2 (fun l hl _ => ?_)
    rcases htab with htab | ⟨r, hr, htab⟩
    · rwa [Node.find, htab] at hl
    · rwa [Node.find, htab, Table.find_apply_of_ne _ _ _ (by rw [hr]; exact Ne.symm hstay.1)] at hl
  | mark id' slot confirms first settles hrep htab =>
    by_cases hmem : id ∈ m.repair
    swap
    · exact hgone hmem (fun l hl _ => by rwa [Node.find, htab] at hl)
    by_cases hid : id = id'
    · subst hid
      exact hin.repaired_mark hmem confirms first settles hrep htab hdecided
    · refine absurd ?_ hstay
      rw [hrep, ← AList.lookup_isSome, markReplicaOk_repair_of_ne hid, AList.lookup_isSome]
      exact hmem
  | restart unconfirmed =>
    refine Or.inr (fun l hl ho => ?_)
    have hz := unconfirmed id l hl (by rw [hmove.self_eq.1, hin.self_eq]; exact ho)
    exact absurd (AList.lookup_isSome.mp (by rw [hz]; rfl)) hstay

end Moving

namespace Trio

/-- A submit and a lease that both replicas confirm, up to the last confirmation. -/
def confirmed : List Act :=
  unleased ++ [.takes b 0, .takes c 0, .does a (.lease 7), .takes a 2, .takes a 3, .takes b 1]

end Trio

end Tautq
