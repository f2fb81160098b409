import Tautq.Safety.Fixed

/-!
# Lease Exclusion Under a Fixed Owner

Where ownership never changes, the grants of a job are made by one node, under
growing numbers, and a later one only after the earlier one was nacked with its
own token or its deadline had passed.

A lease is open while its commit is not decided, and then while the copy is
leased under its number. The deadline is kept in memory only. A restart sets a
new one, counted from the restart, so it can be late and never early. A lease
that finds no quorum is given back, and nobody was granted it. What a resync can
bring back is the lease the owner's copy had last, which is closed already
(`Exclusive`).

The sequence number is a 32-bit word and the attempts of a job may be limited
by the largest one. A job leased that often wraps around to number zero
(`wrapped_lease` in `Safety.Wrap`). The condition is that no lease is asked of a
node with a copy at the largest number.

## Main definitions

* `Presented`: Workers present tokens they were granted.
* `Closes`: An event that ends a granted lease.
* `Exclusive`: What holds of a node's leases.

## Theorems

* `exclusive`: It holds as long as no takeover is logged.
* `lease_exclusion`: Grants of a job are ordered and each closed before the next.
-/

namespace Tautq

open Status Cluster

/-- Workers present tokens they were granted. -/
def Presented : Cond := fun c _ t =>
  match t with
  | .input (.ack id epoch leaseSeq _) =>
    ∃ x ∈ c.members, ∃ ev ∈ (c.node x).events, ev.grants id epoch leaseSeq
  | _ => True

instance (c : Cluster) (e : Endpoint) (t : Trigger) : Decidable (Presented c e t) := by
  unfold Presented
  split <;> infer_instance

/-- Workers present tokens they were granted, and no lease number wraps. -/
def Numbered : Cond := fun c e t =>
  Presented c e t ∧ Unwrapped c e t

instance (c : Cluster) (e : Endpoint) (t : Trigger) : Decidable (Numbered c e t) :=
  inferInstanceAs (Decidable (Presented c e t ∧ Unwrapped c e t))

/-- An event that ends a granted lease: a nack with its own token, or an expiry no
    earlier than its visibility allows. -/
def Closes (g : LeaseGrant) (at_ : Time) : Event → Prop
  | .nacked id epoch leaseSeq _ => id = g.id ∧ epoch = g.epoch ∧ leaseSeq = g.leaseSeq
  | .expired id leaseSeq at' => id = g.id ∧ leaseSeq = g.leaseSeq ∧ at_ + g.visibilityMs ≤ at'
  | _ => False

/-! ### The history of grants -/

/-- A value behind a block that does not have it lies in the rest. -/
theorem split_of_append {α : Type} {pre es new old : List α} {x : α} (hx : x ∉ pre)
    (h : pre ++ es = new ++ x :: old) : ∃ new', new = pre ++ new' ∧ es = new' ++ x :: old := by
  induction pre generalizing new with
  | nil => exact ⟨new, rfl, h⟩
  | cons a pre ih =>
    rw [List.mem_cons, not_or] at hx
    cases new with
    | nil =>
      rw [List.cons_append, List.nil_append, List.cons.injEq] at h
      exact absurd h.1.symm hx.1
    | cons b new =>
      rw [List.cons_append, List.cons_append, List.cons.injEq] at h
      rcases ih hx.2 h.2 with ⟨new', rfl, hes⟩
      exact ⟨new', by rw [h.1, List.cons_append], hes⟩

/-- What holds of a node's leases. An undecided one has no deadline and no end yet, its
    copy is under its number, and all earlier grants of the job are closed. A deadline
    is of a copy that is not queued, and no grant under its number ends later. A grant
    is closed, or the copy is still leased under its number, or the job is over. -/
structure Exclusive (n : Node) : Prop where
  nodup : n.leasing.Nodup
  pending : ∀ id epoch s, (id, epoch, s) ∈ n.leasing → id ∉ n.leaseDeadline ∧
    (∀ at_, .expired id s at_ ∉ n.events) ∧ (∃ l, n.find id = some l) ∧
    (∀ l, n.copy id l → l.owner = n.self ∧ l.epoch = epoch ∧ l.leaseSeq = s ∧ l.state ≠ .ready) ∧
    ∀ new r g at_ old, n.events = new ++ .granted r g at_ :: old → g.id = id →
      g.leaseSeq < s ∧ ∃ ev ∈ new, Closes g at_ ev
  armed : ∀ id deadline, n.leaseDeadline.lookup id = some deadline → ∃ l, n.find id = some l ∧
    l.owner = n.self ∧ l.state ≠ .ready ∧ ∀ r g at_, .granted r g at_ ∈ n.events → g.id = id →
      g.leaseSeq = l.leaseSeq → at_ + g.visibilityMs ≤ deadline
  told : ∀ new r g at_ old, n.events = new ++ .granted r g at_ :: old → at_ ≤ n.now ∧
    (∃ l, n.find g.id = some l) ∧ ∀ l, n.copy g.id l → l.owner = n.self ∧ g.epoch = l.epoch ∧
      g.visibilityMs = l.visibilityMs ∧ g.leaseSeq ≤ l.leaseSeq ∧
      ((∃ ev ∈ new, Closes g at_ ev) ∨ (l.state = .leased ∧ l.leaseSeq = g.leaseSeq) ∨
        l.terminal = true)
  expired : ∀ id s at', .expired id s at' ∈ n.events → (∃ l, n.find id = some l) ∧
    (∀ l, n.copy id l → l.owner = n.self ∧ s ≤ l.leaseSeq) ∧
    ∀ r g at_, .granted r g at_ ∈ n.events → g.id = id → g.leaseSeq = s →
      at_ + g.visibilityMs ≤ at'
  nacked : ∀ id epoch s at', .nacked id epoch s at' ∈ n.events →
    ∃ ev ∈ n.events, ev.grants id epoch s
  order : ∀ new r' g' at' rest, n.events = new ++ .granted r' g' at' :: rest →
    ∀ mid r g at_ old, rest = mid ++ .granted r g at_ :: old → g.id = g'.id →
      g.leaseSeq < g'.leaseSeq ∧ ∃ ev ∈ mid, Closes g at_ ev

namespace Exclusive

variable {m m' : Node}

/-- A grant in the history is one of the listed ones. -/
theorem told_mem (h : Exclusive m) {r : Record} {g : LeaseGrant} {at_ : Time}
    (hg : .granted r g at_ ∈ m.events) {l : Job} (hl : m.copy g.id l) :
    at_ ≤ m.now ∧ l.owner = m.self ∧ g.epoch = l.epoch ∧ g.visibilityMs = l.visibilityMs ∧
      g.leaseSeq ≤ l.leaseSeq := by
  rcases List.append_of_mem hg with ⟨new, old, hevents⟩
  have ht := h.told new r g at_ old hevents
  have hl := ht.2.2 l hl
  exact ⟨ht.1, hl.1, hl.2.1, hl.2.2.1, hl.2.2.2.1⟩

/-- Where the copy goes back to the queue after the end of a lease was told, every grant
    under its number is closed by the newest event. -/
theorem closed_by_head (h : Exclusive m) {id : JobId} {l : Job} (hl : m.copy id l)
    (told : m.events.head? = some (.expired id l.leaseSeq m.now) ∨
      ∃ epoch, m.events.head? = some (.nacked id epoch l.leaseSeq m.now))
    {new old : List Event} {r : Record} {g : LeaseGrant} {at_ : Time}
    (hev : m.events = new ++ .granted r g at_ :: old) (hid : g.id = id)
    (hseq : g.leaseSeq = l.leaseSeq) : ∃ ev ∈ new, Closes g at_ ev := by
  have hg : .granted r g at_ ∈ m.events := by
    rw [hev]
    simp
  cases new with
  | nil => rw [hev] at told; simp at told
  | cons ev new =>
    have hhead : m.events.head? = some ev := by rw [hev]; rfl
    have hmem : ev ∈ m.events := by rw [hev]; simp
    refine ⟨ev, List.mem_cons_self, ?_⟩
    rw [hhead] at told
    rcases told with hexp | ⟨epoch, hnack⟩
    · rw [Option.some.inj hexp] at hmem ⊢
      exact ⟨hid.symm, hseq.symm, (h.expired _ _ _ hmem).2.2 r g at_ hg hid hseq⟩
    · rw [Option.some.inj hnack] at hmem ⊢
      refine ⟨hid.symm, ?_, hseq.symm⟩
      rcases h.nacked _ _ _ _ hmem with ⟨ev₂, hev₂, hgr⟩
      cases ev₂ with
      | granted r₂ g₂ at₂ =>
        subst hid
        have h₂ := h.told_mem hev₂ (hgr.1.symm ▸ hl)
        rw [← hgr.2.1, h₂.2.2.1, (h.told_mem hg hl).2.2.1]
      | _ => cases hgr

end Exclusive

/-- What happens to a copy at its owner, with what makes a return to the queue safe: the
    job has no deadline and no undecided lease, and all grants under its number are
    closed. -/
inductive Change (m m' : Node) (id : JobId) (l : Job) : Job → Prop where
  | lease (j : Job) (ready : l.state = .ready) (next : l.leaseSeq < j.leaseSeq) : Change m m' id l j
  | ended (j : Job) (terminal : j.terminal = true) (same : j.leaseSeq = l.leaseSeq) :
      Change m m' id l j
  | back (j : Job) (leased : l.state = .leased) (same : j.leaseSeq = l.leaseSeq)
      (disarmed : id ∉ m.leaseDeadline) (decided : ∀ epoch, (id, epoch, l.leaseSeq) ∉ m'.leasing)
      (closed : ∀ new r g at_ old, m.events = new ++ .granted r g at_ :: old → g.id = id →
        g.leaseSeq = l.leaseSeq → ∃ ev ∈ new, Closes g at_ ev) : Change m m' id l j
  | again (j : Job) (ready : l.state = .ready) (same : j.leaseSeq = l.leaseSeq) : Change m m' id l j
  | none : Change m m' id l l

theorem Change.leaseSeq_le {m m' : Node} {id : JobId} {l j : Job} (h : Change m m' id l j) :
    l.leaseSeq ≤ j.leaseSeq := by
  cases h with
  | lease _ _ next => omega
  | ended _ _ same => omega
  | back _ _ same => omega
  | again _ _ same => omega
  | none => exact le_refl _

/-- The copies of the node's own jobs took a turn each, or none. -/
structure Turned (m m' : Node) : Prop where
  self : m'.self = m.self
  stays : ∀ id l, m.find id = some l → ∃ l', m'.find id = some l'
  find : ∀ id l l', m.find id = some l → l.owner = m.self → m'.find id = some l' →
    Change m m' id l l' ∧ l'.owner = l.owner
  copy : ∀ id l l', m.find id = some l → l.owner = m.self → m'.copy id l' → ∃ l₁, m.copy id l₁ ∧
    Change m m' id l₁ l' ∧ l'.owner = l₁.owner ∧ l'.epoch = l₁.epoch ∧
      l'.visibilityMs = l₁.visibilityMs

/-- All copies of a job a node ever had agree on what leases depend on. -/
def Agreed (n : Node) : Prop :=
  ∀ id l l', Held n.store.log id l → Held n.store.log id l' →
    l.owner = l'.owner ∧ l.epoch = l'.epoch ∧ l.visibilityMs = l'.visibilityMs

namespace Turned

variable {m m' : Node}

theorem of_same (self : m'.self = m.self) (table : m'.store.table = m.store.table)
    (log : m'.store.log = m.store.log) : Turned m m' where
  self := self
  stays id l hl := ⟨l, by rw [Node.find, table]; exact hl⟩
  find id l l' hl _ hl' := by
    rw [Node.find, table] at hl'
    rw [Option.some.inj (hl'.symm.trans hl)]
    exact ⟨.none, rfl⟩
  copy id l l' _ _ hl' := by
    rw [Node.copy, Node.find, table, log] at hl'
    exact ⟨l', hl', .none, rfl, rfl, rfl⟩

theorem of_write {r : Record} (self : m'.self = m.self) (agreed : Agreed m')
    (open_ : m.store.failed = false)
    (table : m'.store.table = m.store.table ∨ m'.store.table = m.store.table.apply r)
    (log : m'.store.log = m.store.log ++ [r])
    (change : ∀ l, m.find r.jobId = some l → l.owner = m.self →
      Change m m' r.jobId l (r.on l)) : Turned m m' := by
  have hprefix : m.store.log <+: m'.store.log := by
    rw [log]
    exact List.prefix_append _ _
  have hfind : ∀ id l l', m.find id = some l → m'.find id = some l' →
      l' = l ∨ (r.jobId = id ∧ l' = r.on l) := by
    intro id l l' hl hl'
    rw [Node.find] at hl'
    rcases table with ht | ht
    · exact Or.inl (Option.some.inj ((ht ▸ hl').symm.trans hl))
    · rw [ht, find_apply_of_some r hl, Option.some.injEq] at hl'
      by_cases hid : r.jobId = id
      · exact Or.inr ⟨hid, by rw [← hl', if_pos hid]⟩
      · exact Or.inl (by rw [← hl', if_neg hid])
  refine ⟨self, ?_, ?_, ?_⟩
  · intro id l hl
    rcases table with ht | ht
    · exact ⟨l, by rw [Node.find, ht]; exact hl⟩
    · exact ⟨_, by rw [Node.find, ht]; exact find_apply_of_some r hl⟩
  · intro id l l' hl ho hl'
    have hown := agreed id l' l (Node.held_of_find hl') ((Node.held_of_find hl).mono hprefix)
    rcases hfind id l l' hl hl' with rfl | ⟨rfl, rfl⟩
    · exact ⟨.none, rfl⟩
    · exact ⟨change l hl ho, hown.1⟩
  · intro id l l' hl ho hl'
    rcases copy_append open_ table log hl' with hold | ⟨rfl, heff⟩
    · exact ⟨l', hold, .none, rfl, rfl, rfl⟩
    · have hon : l' = r.on l := by
        rw [hl, Record.effect, Option.some.injEq] at heff
        exact heff.symm
      have hagree := agreed _ l' l hl'.held ((Node.held_of_find hl).mono hprefix)
      refine ⟨l, Or.inl hl, ?_, hagree.1, hagree.2.1, hagree.2.2⟩
      rw [hon]
      exact change l hl ho

end Turned

namespace Exclusive

variable {m m' : Node}

theorem beside (h : Exclusive m) (ht : Turned m m') (hb : Beside m m') : Exclusive m' := by
  rcases hb.events with ⟨pre, hpre, hmarks⟩
  have hgrant : ∀ r g at_, .granted r g at_ ∉ pre := fun r g at_ hmem => by cases hmarks _ hmem
  have hold : ∀ ev, ev.marks = true → ev ∈ m'.events → ev ∈ m.events := by
    intro ev hev hmem
    rw [hpre, List.mem_append] at hmem
    refine hmem.resolve_left (fun hin => ?_)
    rw [hmarks ev hin] at hev
    cases hev
  have hsplit : ∀ {new r g at_ old}, m'.events = new ++ .granted r g at_ :: old →
      ∃ new', new = pre ++ new' ∧ m.events = new' ++ .granted r g at_ :: old := by
    intro new r g at_ old hev
    exact split_of_append (hgrant r g at_) (hpre ▸ hev)
  have hclosed : ∀ {new : List Event} {g at_}, (∃ ev ∈ new, Closes g at_ ev) →
      ∃ ev ∈ pre ++ new, Closes g at_ ev := by
    rintro new g at_ ⟨ev, hev, hcl⟩
    exact ⟨ev, List.mem_append_right _ hev, hcl⟩
  refine ⟨h.nodup.sublist hb.leasing, ?_, ?_, ?_, ?_, ?_, ?_⟩
  · intro id epoch s hmem
    rcases h.pending id epoch s (hb.leasing.subset hmem) with
      ⟨hdis, hexp, ⟨l, hl⟩, hcopies, hgrants⟩
    refine ⟨fun hin => ?_, fun at_ hev => hexp at_ (hold _ rfl hev), ht.stays id l hl, ?_, ?_⟩
    · rcases Option.isSome_iff_exists.mp (AList.lookup_isSome.mpr hin) with ⟨deadline, hd⟩
      exact hdis (AList.lookup_isSome.mp (by rw [hb.armed id deadline hd]; rfl))
    · intro l' hl'
      rcases ht.copy id l l' hl (hcopies l (Or.inl hl)).1 hl' with
        ⟨l₁, hl₁, hturn, hown, hepoch, _⟩
      rcases hcopies l₁ hl₁ with ⟨ho, he, hs, hready⟩
      rw [ht.self, hown, hepoch]
      refine ⟨ho, he, ?_⟩
      cases hturn with
      | lease _ ready => exact absurd ready hready
      | ended _ terminal same =>
        refine ⟨same.trans hs, fun hr => ?_⟩
        rw [Job.terminal, hr] at terminal
        cases terminal
      | back _ leased same disarmed decided => exact absurd (hs ▸ hmem) (decided epoch)
      | again _ ready => exact absurd ready hready
      | none => exact ⟨hs, hready⟩
    · intro new r g at_ old hev hid
      rcases hsplit hev with ⟨new', rfl, hev'⟩
      have hg := hgrants new' r g at_ old hev' hid
      exact ⟨hg.1, hclosed hg.2⟩
  · intro id deadline hd
    have hd' := hb.armed id deadline hd
    rcases h.armed id deadline hd' with ⟨l, hl, ho, hready, hlate⟩
    rcases ht.stays id l hl with ⟨l', hl'⟩
    rcases ht.find id l l' hl ho hl' with ⟨hturn, hown⟩
    refine ⟨l', hl', by rw [hown, ho, ht.self], ?_⟩
    cases hturn with
    | lease _ ready => exact absurd ready hready
    | ended _ terminal same =>
      refine ⟨fun hr => ?_, fun r g at_ hg hid hs => ?_⟩
      · rw [Job.terminal, hr] at terminal
        cases terminal
      · exact hlate r g at_ (hold _ rfl hg) hid (hs.trans same)
    | back _ leased same disarmed =>
      exact absurd (AList.lookup_isSome.mp (by rw [hd']; rfl)) disarmed
    | again _ ready => exact absurd ready hready
    | none => exact ⟨hready, fun r g at_ hg hid hs => hlate r g at_ (hold _ rfl hg) hid hs⟩
  · intro new r g at_ old hev
    rcases hsplit hev with ⟨new', rfl, hev'⟩
    rcases h.told new' r g at_ old hev' with ⟨hat, ⟨l, hl⟩, hcopies⟩
    refine ⟨hat.trans hb.now, ht.stays _ l hl, fun l' hl' => ?_⟩
    rcases ht.copy _ l l' hl (hcopies l (Or.inl hl)).1 hl' with ⟨l₁, hl₁, hturn, hown, hepoch, hvis⟩
    rcases hcopies l₁ hl₁ with ⟨ho, he, hv, hs, hrest⟩
    rw [hown, hepoch, hvis, ht.self]
    refine ⟨ho, he, hv, hs.trans hturn.leaseSeq_le, ?_⟩
    -- A copy in the queue has no open grant.
    have hqueued : l₁.state = .ready → ∃ ev ∈ pre ++ new', Closes g at_ ev := by
      intro hready
      rcases hrest with hcl | ⟨hleased, _⟩ | hterm
      · exact hclosed hcl
      · rw [hready] at hleased
        cases hleased
      · rw [Job.terminal, hready] at hterm
        cases hterm
    cases hturn with
    | lease _ ready => exact Or.inl (hqueued ready)
    | ended _ terminal => exact Or.inr (Or.inr terminal)
    | back _ leased same disarmed decided closed =>
      rcases hrest with hcl | ⟨_, hseq⟩ | hterm
      · exact Or.inl (hclosed hcl)
      · exact Or.inl (hclosed (closed new' r g at_ old hev' rfl hseq.symm))
      · rw [Job.terminal, leased] at hterm
        cases hterm
    | again _ ready => exact Or.inl (hqueued ready)
    | none =>
      rcases hrest with hcl | hrest
      · exact Or.inl (hclosed hcl)
      · exact Or.inr hrest
  · intro id s at' hev
    rcases h.expired id s at' (hold _ rfl hev) with ⟨⟨l, hl⟩, hcopies, hlate⟩
    refine ⟨ht.stays id l hl, fun l' hl' => ?_, fun r g at_ hg => hlate r g at_ (hold _ rfl hg)⟩
    rcases ht.copy id l l' hl (hcopies l (Or.inl hl)).1 hl' with ⟨l₁, hl₁, hturn, hown, _⟩
    rw [hown, ht.self]
    exact ⟨(hcopies l₁ hl₁).1, (hcopies l₁ hl₁).2.trans hturn.leaseSeq_le⟩
  · intro id epoch s at' hev
    rcases h.nacked id epoch s at' (hold _ rfl hev) with ⟨ev, hmem, hgr⟩
    exact ⟨ev, by rw [hpre]; exact List.mem_append_right _ hmem, hgr⟩
  · intro new r' g' at' rest hev
    rcases hsplit hev with ⟨new', rfl, hev'⟩
    exact h.order new' r' g' at' rest hev'

/-- A lease is begun: nothing of its number has been told, and all grants are closed. -/
theorem pend (h : Exclusive m) {id : JobId} {epoch s : Nat} (self : m'.self = m.self)
    (stored : m'.store = m.store) (deadlines : m'.leaseDeadline = m.leaseDeadline)
    (events : m'.events = m.events) (now : m'.now = m.now)
    (leasing : m'.leasing = m.leasing ++ [(id, epoch, s)]) (fresh : (id, epoch, s) ∉ m.leasing)
    (disarmed : id ∉ m.leaseDeadline) (untold : ∀ at_, .expired id s at_ ∉ m.events)
    (found : ∃ l, m.find id = some l)
    (copies : ∀ l, m.copy id l → l.owner = m.self ∧ l.epoch = epoch ∧ l.leaseSeq = s ∧
      l.state ≠ .ready)
    (closed : ∀ new r g at_ old, m.events = new ++ .granted r g at_ :: old → g.id = id →
      g.leaseSeq < s ∧ ∃ ev ∈ new, Closes g at_ ev) : Exclusive m' := by
  have hfind := Node.find_congr stored
  have hcopy := Node.copy_congr stored
  refine ⟨?_, ?_, ?_, ?_, ?_, ?_, ?_⟩
  · rw [leasing]
    refine h.nodup.append (List.nodup_singleton _) ?_
    intro x hx hx'
    rw [List.mem_singleton] at hx'
    exact fresh (hx' ▸ hx)
  · intro id' epoch' s' hmem
    rw [leasing, List.mem_append, List.mem_singleton] at hmem
    simp only [deadlines, events, hfind, hcopy, self]
    rcases hmem with hmem | heq
    · exact h.pending id' epoch' s' hmem
    · simp only [Prod.mk.injEq] at heq
      rcases heq with ⟨rfl, rfl, rfl⟩
      exact ⟨disarmed, untold, found, copies, closed⟩
  · simpa only [deadlines, events, hfind, self] using h.armed
  · simpa only [events, now, hfind, hcopy, self] using h.told
  · simpa only [events, hfind, hcopy, self] using h.expired
  · simpa only [events] using h.nacked
  · simpa only [events] using h.order

/-- An undecided lease is granted. -/
theorem grant (h : Exclusive m) {id : JobId} {j : Job} {epoch s : Nat} {r : Record}
    (pre : List Event) (self : m'.self = m.self) (stored : m'.store = m.store)
    (found : m.find id = some j)
    (visible : ∀ l, m.copy id l → l.visibilityMs = j.visibilityMs)
    (leasing : m.leasing.Perm ((id, epoch, s) :: m'.leasing))
    (deadlines : m'.leaseDeadline = m.leaseDeadline.insert id (m.now + j.visibilityMs))
    (unmarked : ∀ ev ∈ pre, ev.marks = false)
    (events : m'.events = .granted r (Node.grantOf id j) m.now :: (pre ++ m.events))
    (now : m'.now = m.now) : Exclusive m' := by
  have hfind := Node.find_congr stored
  have hcopy := Node.copy_congr stored
  have hpend := h.pending id epoch s (leasing.symm.subset List.mem_cons_self)
  rcases hpend with ⟨_, huntold, _, hcopies, hclosed⟩
  rcases hcopies j (Or.inl found) with ⟨howner, hepoch, hseq, hready⟩
  have hnodup := leasing.nodup_iff.mp h.nodup
  rw [List.nodup_cons] at hnodup
  -- The history behind the new grant.
  have hrest : ∀ {new r g at_ old}, pre ++ m.events = new ++ .granted r g at_ :: old →
      ∃ new', new = pre ++ new' ∧ m.events = new' ++ .granted r g at_ :: old :=
    fun hev => split_of_append (fun hmem => by cases unmarked _ hmem) hev
  have hcases : ∀ {new r' g at_ old}, m'.events = new ++ .granted r' g at_ :: old →
      (new = [] ∧ g = Node.grantOf id j ∧ at_ = m.now ∧ old = pre ++ m.events) ∨
        ∃ new', new = .granted r (Node.grantOf id j) m.now :: (pre ++ new') ∧
          m.events = new' ++ .granted r' g at_ :: old := by
    intro new r' g at_ old hev
    rw [events] at hev
    cases new with
    | nil =>
      simp only [List.nil_append, List.cons.injEq, Event.granted.injEq] at hev
      exact Or.inl ⟨rfl, hev.1.2.1.symm, hev.1.2.2.symm, hev.2.symm⟩
    | cons ev new =>
      rw [List.cons_append, List.cons.injEq] at hev
      rcases hrest hev.2 with ⟨new', rfl, hev'⟩
      exact Or.inr ⟨new', by rw [hev.1], hev'⟩
  have hmem : ∀ {r' g at_}, .granted r' g at_ ∈ m'.events →
      (g = Node.grantOf id j ∧ at_ = m.now) ∨ .granted r' g at_ ∈ m.events := by
    intro r' g at_ hg
    rcases List.append_of_mem hg with ⟨new, old, hev⟩
    rcases hcases hev with ⟨_, hg, hat, _⟩ | ⟨new', _, hev'⟩
    · exact Or.inl ⟨hg, hat⟩
    · exact Or.inr (by rw [hev']; simp)
  have hold : ∀ ev, ev.marks = true → (∀ r g at_, ev ≠ .granted r g at_) → ev ∈ m'.events →
      ev ∈ m.events := by
    intro ev hev hne hin
    rw [events, List.mem_cons, List.mem_append] at hin
    rcases hin with hin | hin | hin
    · exact absurd hin (hne _ _ _)
    · rw [unmarked ev hin] at hev
      cases hev
    · exact hin
  have hmore : ∀ {new' : List Event} {g at_}, (∃ ev ∈ new', Closes g at_ ev) →
      ∃ ev ∈ .granted r (Node.grantOf id j) m.now :: (pre ++ new'), Closes g at_ ev := by
    rintro new' g at_ ⟨ev, hev, hcl⟩
    exact ⟨ev, List.mem_cons_of_mem _ (List.mem_append_right _ hev), hcl⟩
  refine ⟨hnodup.2, ?_, ?_, ?_, ?_, ?_, ?_⟩
  · -- No other lease of the job is undecided: it would have the same token.
    intro id' epoch' s' hin
    rcases h.pending id' epoch' s' (leasing.symm.subset (List.mem_cons_of_mem _ hin)) with
      ⟨hdis, hexp, hfound, hcop, hgr⟩
    have hne : id' ≠ id := by
      rintro rfl
      rcases hcop j (Or.inl found) with ⟨_, he', hs', _⟩
      rw [← he', ← hs', hepoch, hseq] at hin
      exact hnodup.1 hin
    rw [deadlines, AList.mem_insert, not_or]
    simp only [hfind, hcopy, self]
    refine ⟨⟨hne, hdis⟩, fun at_ hev => hexp at_ (hold _ rfl (by simp) hev), hfound, hcop, ?_⟩
    intro new r' g at_ old hev hid
    rcases hcases hev with ⟨_, rfl, _⟩ | ⟨new', rfl, hev'⟩
    · exact absurd hid.symm hne
    · exact ⟨(hgr new' r' g at_ old hev' hid).1, hmore (hgr new' r' g at_ old hev' hid).2⟩
  · intro id' deadline hd
    rw [deadlines] at hd
    simp only [hfind, self]
    rcases lookup_insert_cases hd with ⟨rfl, rfl⟩ | ⟨hne, hd'⟩
    · refine ⟨j, found, howner, hready, fun r' g at_ hg hid hs => ?_⟩
      rcases hmem hg with ⟨rfl, rfl⟩ | hg'
      · exact le_refl _
      · rcases List.append_of_mem hg' with ⟨new, old, hev⟩
        have hlt := (hclosed new r' g at_ old hev hid).1
        omega
    · rcases h.armed id' deadline hd' with ⟨l, hl, ho, hr, hlate⟩
      refine ⟨l, hl, ho, hr, fun r' g at_ hg hid hs => ?_⟩
      rcases hmem hg with ⟨rfl, _⟩ | hg'
      · exact absurd hid.symm hne
      · exact hlate r' g at_ hg' hid hs
  · intro new r' g at_ old hev
    simp only [hfind, hcopy, self, now]
    rcases hcases hev with ⟨_, rfl, rfl, _⟩ | ⟨new', rfl, hev'⟩
    · refine ⟨le_refl _, ⟨j, found⟩, fun l hl => ?_⟩
      rcases hcopies l hl with ⟨ho, he, hs, hr⟩
      refine ⟨ho, hepoch.trans he.symm, (visible l hl).symm, (hseq.trans hs.symm).le, Or.inr ?_⟩
      cases hstate : l.state with
      | ready => exact absurd hstate hr
      | leased => exact Or.inl ⟨rfl, hs.trans hseq.symm⟩
      | done | deadLetter => exact Or.inr (by simp [Job.terminal, hstate])
    · rcases h.told new' r' g at_ old hev' with ⟨hat, hfound, hcop⟩
      refine ⟨hat, hfound, fun l hl => ?_⟩
      rcases hcop l hl with ⟨ho, he, hv, hs, hrest'⟩
      exact ⟨ho, he, hv, hs, hrest'.imp_left hmore⟩
  · intro id' s' at' hev
    simp only [hfind, hcopy, self]
    rcases h.expired id' s' at' (hold _ rfl (by simp) hev) with ⟨hfound, hcop, hlate⟩
    refine ⟨hfound, hcop, fun r' g at_ hg hid hs => ?_⟩
    rcases hmem hg with ⟨rfl, _⟩ | hg'
    · -- The end of the lease was not told before it was granted.
      have hid' : id = id' := hid
      have hs' : j.leaseSeq = s' := hs
      subst hid'
      rw [← hs', hseq] at hev
      exact absurd (hold _ rfl (by simp) hev) (huntold at')
    · exact hlate r' g at_ hg' hid hs
  · intro id' epoch' s' at' hev
    rcases h.nacked id' epoch' s' at' (hold _ rfl (by simp) hev) with ⟨ev, hin, hgr⟩
    refine ⟨ev, ?_, hgr⟩
    rw [events]
    exact List.mem_cons_of_mem _ (List.mem_append_right _ hin)
  · intro new r' g' at' rest hev mid r₂ g at_ old hrest' hid
    rcases hcases hev with ⟨_, rfl, rfl, hold'⟩ | ⟨new', rfl, hev'⟩
    · rw [hold'] at hrest'
      rcases hrest hrest' with ⟨mid', rfl, hev'⟩
      rcases hclosed mid' r₂ g at_ old hev' hid with ⟨hlt, ev, hin, hcl⟩
      refine ⟨?_, ev, List.mem_append_right _ hin, hcl⟩
      rw [← hseq] at hlt
      exact hlt
    · exact h.order new' r' g' at' rest hev' mid r₂ g at_ old hrest' hid

/-- The end of a lease is told when its deadline has passed, or for a token that was
    granted; the deadline is dropped. -/
theorem tell (h : Exclusive m) (ev : Event) {id : JobId} (self : m'.self = m.self)
    (stored : m'.store = m.store) (leasing : m'.leasing = m.leasing)
    (deadlines : m'.leaseDeadline = m.leaseDeadline.erase id) (events : m'.events = ev :: m.events)
    (now : m'.now = m.now) (other : ∀ r g at_, .granted r g at_ ≠ ev)
    (expiry : ∀ id s at', ev = .expired id s at' → (∃ l, m.find id = some l) ∧
      (∀ l, m.copy id l → l.owner = m.self ∧ s ≤ l.leaseSeq) ∧
      (∀ epoch, (id, epoch, s) ∉ m.leasing) ∧ ∀ r g at_, .granted r g at_ ∈ m.events → g.id = id →
        g.leaseSeq = s → at_ + g.visibilityMs ≤ at')
    (nack : ∀ id epoch s at', ev = .nacked id epoch s at' →
      ∃ ev ∈ m.events, ev.grants id epoch s) : Exclusive m' := by
  have hfind := Node.find_congr stored
  have hcopy := Node.copy_congr stored
  have hsplit : ∀ {new r g at_ old}, m'.events = new ++ .granted r g at_ :: old →
      ∃ new', new = ev :: new' ∧ m.events = new' ++ .granted r g at_ :: old := by
    intro new r g at_ old hev
    rw [events] at hev
    exact split_of_append (show _ ∉ [ev] by simpa using other r g at_) hev
  have hgrants : ∀ r g at_, .granted r g at_ ∈ m'.events → .granted r g at_ ∈ m.events := by
    intro r g at_ hg
    rw [events, List.mem_cons] at hg
    exact hg.resolve_left (other r g at_)
  have hmore : ∀ {new' : List Event} {g at_}, (∃ x ∈ new', Closes g at_ x) →
      ∃ x ∈ ev :: new', Closes g at_ x := by
    rintro new' g at_ ⟨x, hx, hcl⟩
    exact ⟨x, List.mem_cons_of_mem _ hx, hcl⟩
  refine ⟨leasing ▸ h.nodup, ?_, ?_, ?_, ?_, ?_, ?_⟩
  · intro id' epoch s hmem
    rw [leasing] at hmem
    simp only [hfind, hcopy, self]
    rcases h.pending id' epoch s hmem with ⟨hdis, hexp, hfound, hcop, hgr⟩
    refine ⟨fun hin => hdis ?_, fun at_ hev => ?_, hfound, hcop, ?_⟩
    · rw [deadlines, AList.mem_erase] at hin
      exact hin.2
    · rw [events, List.mem_cons] at hev
      rcases hev with hev | hev
      · exact (expiry id' s at_ hev.symm).2.2.1 epoch hmem
      · exact hexp at_ hev
    · intro new r g at_ old hev hid
      rcases hsplit hev with ⟨new', rfl, hev'⟩
      exact ⟨(hgr new' r g at_ old hev' hid).1, hmore (hgr new' r g at_ old hev' hid).2⟩
  · intro id' deadline hd
    rw [deadlines] at hd
    simp only [hfind, self]
    rcases h.armed id' deadline (lookup_erase_cases hd).2 with ⟨l, hl, ho, hr, hlate⟩
    exact ⟨l, hl, ho, hr, fun r g at_ hg => hlate r g at_ (hgrants r g at_ hg)⟩
  · intro new r g at_ old hev
    simp only [hfind, hcopy, self, now]
    rcases hsplit hev with ⟨new', rfl, hev'⟩
    rcases h.told new' r g at_ old hev' with ⟨hat, hfound, hcop⟩
    refine ⟨hat, hfound, fun l hl => ?_⟩
    rcases hcop l hl with ⟨ho, he, hv, hs, hrest⟩
    exact ⟨ho, he, hv, hs, hrest.imp_left hmore⟩
  · intro id' s at' hev
    simp only [hfind, hcopy, self]
    rw [events, List.mem_cons] at hev
    have hfacts : (∃ l, m.find id' = some l) ∧
        (∀ l, m.copy id' l → l.owner = m.self ∧ s ≤ l.leaseSeq) ∧
        ∀ r g at_, .granted r g at_ ∈ m.events → g.id = id' → g.leaseSeq = s →
          at_ + g.visibilityMs ≤ at' := by
      rcases hev with hev | hev
      · rcases expiry id' s at' hev.symm with ⟨hfound, hcop, _, hlate⟩
        exact ⟨hfound, hcop, hlate⟩
      · exact h.expired id' s at' hev
    exact ⟨hfacts.1, hfacts.2.1, fun r g at_ hg => hfacts.2.2 r g at_ (hgrants r g at_ hg)⟩
  · intro id' epoch s at' hev
    rw [events, List.mem_cons] at hev
    rcases hev with hev | hev
    · rcases nack id' epoch s at' hev.symm with ⟨x, hx, hgr⟩
      exact ⟨x, by rw [events]; exact List.mem_cons_of_mem _ hx, hgr⟩
    · rcases h.nacked id' epoch s at' hev with ⟨x, hx, hgr⟩
      exact ⟨x, by rw [events]; exact List.mem_cons_of_mem _ hx, hgr⟩
  · intro new r' g' at' rest hev
    rcases hsplit hev with ⟨new', rfl, hev'⟩
    exact h.order new' r' g' at' rest hev'

/-- A restart: what was undecided is gone, and every lease gets a new deadline. -/
theorem reboot (h : Exclusive m) (self : m'.self = m.self)
    (table : ∀ id, m'.find id = (replay m.store.log).find id) (log : m'.store.log = m.store.log)
    (stays : ∀ id l, m.find id = some l → ∃ l', m'.find id = some l') (leasing : m'.leasing = [])
    (armed : ∀ id deadline, m'.leaseDeadline.lookup id = some deadline → ∃ j, m'.find id = some j ∧
      j.state = .leased ∧ j.owner = m.self ∧ deadline = m.now + j.visibilityMs)
    (events : m'.events = m.events) (now : m'.now = m.now) : Exclusive m' := by
  have hcopy : ∀ id l, m'.copy id l → m.copy id l := by
    rintro id l (hl | hl)
    · rw [table] at hl
      exact Or.inr hl
    · rw [log] at hl
      exact Or.inr hl
  refine ⟨?_, ?_, ?_, ?_, ?_, ?_, ?_⟩
  · rw [leasing]
    exact List.nodup_nil
  · intro id epoch s hmem
    rw [leasing] at hmem
    cases hmem
  · intro id deadline hd
    rcases armed id deadline hd with ⟨j, hj, hleased, ho, rfl⟩
    refine ⟨j, hj, by rw [ho, self], by rw [hleased]; simp, fun r g at_ hg hid _ => ?_⟩
    rw [events] at hg
    subst hid
    have ht := h.told_mem hg (hcopy _ _ (Or.inl hj))
    rw [ht.2.2.2.1]
    exact Nat.add_le_add_right ht.1 _
  · intro new r g at_ old hev
    rw [events] at hev
    rcases h.told new r g at_ old hev with ⟨hat, ⟨l, hl⟩, hcop⟩
    rw [now, self]
    exact ⟨hat, stays _ l hl, fun l hl => hcop l (hcopy _ l hl)⟩
  · intro id s at' hev
    rw [events] at hev
    rcases h.expired id s at' hev with ⟨⟨l, hl⟩, hcop, hlate⟩
    rw [events, self]
    exact ⟨stays id l hl, fun l hl => hcop l (hcopy _ l hl), hlate⟩
  · rw [events]
    exact h.nacked
  · rw [events]
    exact h.order

end Exclusive

/-! ### The invariant -/

section Invariants

variable {K : Cond} {d : Deployment} {c : Cluster} {e : Endpoint} {t : Trigger} {m m' : Node}

/-- A token that is presented to the owner was granted. -/
theorem Inside.presented (hK : ∀ c e t, K c e t → Presented c e t) (hin : Inside K d c e t m)
    {id : JobId} {epoch s : Nat} {success : Bool} {cb : AckCb} (h : Acks t id epoch s success cb) :
    Granted c.node id epoch s := by
  refine hin.acked (P := fun w id epoch s _ => Granted w id epoch s) (fun hg h => h.grows hg)
    (fun c e t h id epoch s success ht => ?_) h
  have hpres := hK c e t h
  rw [ht] at hpres
  rcases hpres with ⟨x, _, ev, hev, hgr⟩
  exact ⟨x, ev, hev, hgr⟩

/-- A turn of a copy is safe where the node's leases are in order. -/
theorem Turn.change (hm : Exclusive m) (hfewer : m'.leasing.Sublist m.leasing) {id : JobId}
    {l l' : Job} (hl : m.copy id l) (h : Turn m id l l') : Change m m' id l l' := by
  cases h with
  | lease _ ready leased next => exact .lease _ ready (by omega)
  | ended _ terminal same => exact .ended _ terminal same
  | again _ ready leased same => exact .again _ ready same
  | none => exact .none
  | back _ leased ready same disarmed told =>
    refine .back _ leased same disarmed (fun epoch hmem => ?_)
      (fun new r g at_ old hev hid hs => hm.closed_by_head hl told hev hid hs)
    -- The end of an undecided lease is not told: it was never granted.
    rcases hm.pending id epoch _ (hfewer.subset hmem) with ⟨_, hexp, _, _, hgrants⟩
    rcases told with htold | ⟨epoch', htold⟩
    · exact hexp m.now (List.mem_of_mem_head? htold)
    · rcases hm.nacked _ _ _ _ (List.mem_of_mem_head? htold) with ⟨ev, hev, hgr⟩
      cases ev with
      | granted r g at_ =>
        rcases List.append_of_mem hev with ⟨new, old, hevents⟩
        have hlt := (hgrants new r g at_ old hevents hgr.1).1
        have heq := hgr.2.2
        omega
      | _ => cases hgr

theorem Inside.agreed (hin : Inside K d c e t m) (hno : NoTakeover (Function.update c.node e m)) :
    Agreed m := by
  have hsane := sane.inside hin
  have hf := fun x => fixed.inside hin x hno
  intro id l l' hl hl'
  have hw : ∀ j, Held m.store.log id j →
      Held (Function.update c.node e m e).store.log id j := by
    intro j hj
    rw [Function.update_self]
    exact hj
  have he := (hf e).held
  refine ⟨Fixed.owner_eq hf hsane (hw l hl) (hw l' hl'), ?_,
    (hsane.same (hw l hl) (hw l' hl')).visibilityMs⟩
  rw [(he id l (hw l hl)).1, (he id l' (hw l' hl')).1]

/-- A lease is begun on a copy in the queue. -/
theorem Exclusive.lease (hm : Exclusive m) {id : JobId} {l : Job} {s worker : Nat}
    (agreed : Agreed m') (found : m.find id = some l) (owned : l.owner = m.self)
    (ready : l.state = .ready) (open_ : m.store.failed = false) (next : s = l.leaseSeq + 1)
    (self : m'.self = m.self) (stored : m'.store = m.store.append (.lease id l.epoch s worker))
    (leasing : m'.leasing = m.leasing ++ [(id, l.epoch, s)])
    (deadlines : m'.leaseDeadline = m.leaseDeadline) (events : m'.events = m.events)
    (now : m'.now = m.now) : Exclusive m' := by
  have hon : (Record.lease id l.epoch s worker).on l =
      { l with state := .leased, epoch := l.epoch, leaseSeq := s, attempts := s } := by
    rw [Record.on, if_pos (by simp [ready])]
  -- First the record, with the commits as they were; then the undecided commit.
  have hmid : Exclusive { m' with qstates := m.qstates } := by
    refine hm.beside (Turned.of_write (r := .lease id l.epoch s worker) self agreed open_ ?_ ?_ ?_)
      (.of_eq rfl deadlines events now)
    · exact Or.inr (by rw [stored]; rfl)
    · change m'.store.log = _
      rw [stored, m.store.log_append _ open_]
    · intro l₁ hl₁ _
      have hll : l₁ = l := Option.some.inj (hl₁.symm.trans found)
      subst hll
      rw [hon]
      exact .lease _ ready (by rw [next]; exact Nat.lt_succ_self _)
  have hnew : m'.find id = some ((Record.lease id l.epoch s worker).on l) :=
    Node.find_append found stored rfl
  have hopen' : m'.store.failed = false := by
    rw [stored]
    exact open_
  refine hmid.pend rfl rfl rfl rfl rfl leasing ?_ ?_ ?_ ⟨_, hnew⟩ ?_ ?_
  · intro hmem
    exact (hm.pending _ _ _ hmem).2.2.2.1 l (Or.inl found) |>.2.2.2 ready
  · change id ∉ m'.leaseDeadline
    rw [deadlines]
    intro hin
    rcases Option.isSome_iff_exists.mp (AList.lookup_isSome.mpr hin) with ⟨deadline, hd⟩
    rcases hm.armed id deadline hd with ⟨l₁, hl₁, _, hready, _⟩
    exact hready (Option.some.inj (hl₁.symm.trans found) ▸ ready)
  · intro at_ hev
    change _ ∈ m'.events at hev
    rw [events] at hev
    have hle := ((hm.expired id s at_ hev).2.1 l (Or.inl found)).2
    omega
  · intro l' hl'
    have hl' : m'.find id = some l' := by
      rcases hl' with hl' | hl'
      · exact hl'
      · rw [Node.find, ← Store.find_log hopen']
        exact hl'
    rw [Option.some.inj (hl'.symm.trans hnew), hon]
    exact ⟨owned.trans self.symm, rfl, rfl, by simp⟩
  · intro new r g at_ old hev hid
    change m'.events = _ at hev
    rw [events] at hev
    subst hid
    rcases hm.told new r g at_ old hev with ⟨_, _, hcop⟩
    rcases hcop l (Or.inl found) with ⟨_, _, _, hs, hcl | ⟨hleased, _⟩ | hterm⟩
    · exact ⟨by omega, hcl⟩
    · rw [ready] at hleased
      cases hleased
    · rw [Job.terminal, ready] at hterm
      cases hterm

/-- A lease of a job pinned on its owner alone is granted at once. -/
theorem Exclusive.alone (hm : Exclusive m) {id : JobId} {l : Job} {s worker : Nat}
    (agreed : Agreed m') (found : m.find id = some l) (owned : l.owner = m.self)
    (ready : l.state = .ready) (open_ : m.store.failed = false) (next : s = l.leaseSeq + 1)
    (self : m'.self = m.self) (stored : m'.store = m.store.append (.lease id l.epoch s worker))
    (leasing : m'.leasing = m.leasing)
    (deadlines : m'.leaseDeadline = m.leaseDeadline.insert id (m.now + l.visibilityMs))
    (events : m'.events = .granted (.lease id l.epoch s worker)
      (Node.grantOf id ((Record.lease id l.epoch s worker).on l)) m.now :: m.events)
    (now : m'.now = m.now) : Exclusive m' := by
  have hvis : ((Record.lease id l.epoch s worker).on l).visibilityMs = l.visibilityMs := by
    rw [Record.on, if_pos (by simp [ready])]
  -- The lease is undecided for no time at all: in a state of its own, between the two.
  let mid : Node :=
    { m' with
      qstates := m'.qstates ++
        [{ done := .lease id l.epoch s worker, needed := 1, outstanding := 0, fired := false }]
      leaseDeadline := m.leaseDeadline
      events := m.events }
  have hleasing : mid.leasing = m'.leasing ++ [(id, l.epoch, s)] := by
    simp only [mid, Node.leasing, List.filterMap_append]
    rfl
  have hmid : Exclusive mid :=
    hm.lease agreed found owned ready open_ next self stored (by rw [hleasing, leasing]) rfl rfl now
  have hfound : mid.find id = some ((Record.lease id l.epoch s worker).on l) :=
    Node.find_append found stored rfl
  have hperm : mid.leasing.Perm ((id, l.epoch, s) :: m'.leasing) := by
    rw [hleasing]
    exact List.perm_append_singleton _ _
  refine hmid.grant (r := .lease id l.epoch s worker) [] rfl rfl hfound ?_ hperm ?_ (by simp) ?_ rfl
  · intro l' hl'
    exact (agreed id l' _ hl'.held (Node.held_of_find hfound)).2.2
  · rw [hvis, deadlines, ← now]
  · rw [events, ← now]
    rfl

/-- A lease without a quorum goes back to the queue. -/
theorem Exclusive.unlease (hm : Exclusive m) {id : JobId} {l : Job} {epoch s : Nat}
    (agreed : Agreed m') (self : m'.self = m.self) (found : m.find id = some l)
    (attempt : Attempt m.store (.expire id l.epoch l.leaseSeq) m'.store)
    (leasing : m.leasing.Perm ((id, epoch, s) :: m'.leasing)) (beside : Beside m m') :
    Exclusive m' := by
  have hmem : (id, epoch, s) ∈ m.leasing := leasing.mem_iff.mpr List.mem_cons_self
  rcases hm.pending id epoch s hmem with ⟨hdis, _, _, hcopies, hgrants⟩
  rcases hcopies l (Or.inl found) with ⟨_, hepoch, hs, hready⟩
  have hchange : ∀ l₁, m.find id = some l₁ → l₁.owner = m.self →
      Change m m' id l₁ ((Record.expire id l.epoch l.leaseSeq).on l₁) := by
    intro l₁ hl₁ _
    have hll : l₁ = l := Option.some.inj (hl₁.symm.trans found)
    subst hll
    by_cases hleased : l₁.state = .leased
    · have hon : (Record.expire id l₁.epoch l₁.leaseSeq).on l₁ = { l₁ with state := .ready } := by
        simp [Record.on, hleased]
      rw [hon]
      refine .back _ hleased rfl hdis (fun epoch' hmem' => ?_)
        (fun new r g at_ old hev hid hg => ?_)
      · -- A second commit under the number would be the one just decided.
        have hep := ((hm.pending _ _ _ (beside.leasing.subset hmem')).2.2.2.1 l₁ (Or.inl found)).2.1
        have hnodup := leasing.nodup_iff.mp hm.nodup
        rw [← hep, hepoch, hs] at hmem'
        exact (List.nodup_cons.mp hnodup).1 hmem'
      · have hlt := (hgrants new r g at_ old hev hid).1
        omega
    · have hon : (Record.expire id l₁.epoch l₁.leaseSeq).on l₁ = l₁ := by
        simp [Record.on, hleased]
      rw [hon]
      exact .none
  generalize hst : m'.store = st at attempt
  cases attempt with
  | durable open_ =>
    refine hm.beside (.of_write (r := .expire id l.epoch l.leaseSeq) self agreed open_
      (Or.inr ?_) ?_ hchange) beside
    · rw [hst]
      rfl
    · rw [hst, m.store.log_append _ open_]
  | lost open_ =>
    refine hm.beside (.of_same self ?_ ?_) beside
    · rw [hst]
      rfl
    · rw [hst, m.store.log_fail _ open_]
      exact List.append_nil _
  | kept open_ =>
    refine hm.beside (.of_write (r := .expire id l.epoch l.leaseSeq) self agreed open_
      (Or.inl ?_) ?_ hchange) beside
    · rw [hst]
      rfl
    · rw [hst, m.store.log_fail _ open_]
      rfl
  | refused failed => exact hm.beside (.of_same self (by rw [hst]) (by rw [hst])) beside

/-- The deadline of a granted lease has passed. -/
theorem Exclusive.expire (hm : Exclusive m) {id : JobId} {j : Job} {deadline : Time}
    (armed : m.leaseDeadline.lookup id = some deadline) (due : deadline ≤ m.now)
    (copies : ∀ l, m.copy id l → l.owner = m.self ∧ j.leaseSeq ≤ l.leaseSeq)
    (found : m.find id = some j) (self : m'.self = m.self) (stored : m'.store = m.store)
    (leasing : m'.leasing = m.leasing) (deadlines : m'.leaseDeadline = m.leaseDeadline.erase id)
    (events : m'.events = .expired id j.leaseSeq m.now :: m.events) (now : m'.now = m.now) :
    Exclusive m' := by
  refine hm.tell _ self stored leasing deadlines events now (by simp) ?_ (by simp)
  intro id' s at' heq
  cases heq
  refine ⟨⟨j, found⟩, copies, fun epoch hmem => ?_, fun r g at_ hg hid hs => ?_⟩
  · exact (hm.pending _ _ _ hmem).1 (AList.lookup_isSome.mp (by rw [armed]; rfl))
  · rcases hm.armed id deadline armed with ⟨l, hl, _, _, hlate⟩
    have hll : l = j := Option.some.inj (hl.symm.trans found)
    exact (hlate r g at_ hg hid (hll ▸ hs)).trans due

/-- Where ownership is fixed, the grant behind a worker's token is the owner's own. -/
theorem Inside.granted_here (hin : Inside K d c e t m)
    (hno : NoTakeover (Function.update c.node e m)) (hc : ∀ x, Exclusive (c.node x))
    {id : JobId} {j : Job} {epoch s : Nat} (hj : m.find id = some j) (ho : j.owner = m.self)
    (h : Granted c.node id epoch s) : ∃ ev ∈ m.events, ev.grants id epoch s := by
  rcases h with ⟨x, ev, hev, hgr⟩
  by_cases hx : x = e
  · subst hx
    exact ⟨ev, hin.node_grows.events.subset hev, hgr⟩
  cases ev with
  | granted r g at_ =>
    rcases List.append_of_mem hev with ⟨new, old, hevents⟩
    rcases (hc x).told new r g at_ old hevents with ⟨_, ⟨l, hl⟩, hcop⟩
    have hlx : Held (Function.update c.node e m x).store.log id l := by
      rw [Function.update_of_ne hx, ← hgr.1]
      exact Node.held_of_find hl
    have hje : Held (Function.update c.node e m e).store.log id j := by
      rw [Function.update_self]
      exact Node.held_of_find hj
    have heq := Fixed.owner_eq (fun x => fixed.inside hin x hno) (sane.inside hin) hlx hje
    rw [(hcop l (Or.inl hl)).1, (names.reach hin.reach x).1, ho, hin.self_eq] at heq
    exact absurd heq hx
  | _ => cases hgr

theorem exclusive (hK : ∀ c e t, K c e t → Numbered c e t) :
    Always K d (fun w => ∀ e, NoTakeover w → Exclusive (w e)) := by
  refine always_of_node (Q := fun w n => NoTakeover w → Exclusive n)
    (fun hg h hno => h (hno.of_grows hg)) ?_ (fun {c e t m m'} hin hc hm hgrow hmove => ?_)
  · intro e _
    have hleasing : (d.init.node e).leasing = [] := rfl
    have hevents : (d.init.node e).events = [] := rfl
    have hdeadlines : (d.init.node e).leaseDeadline = ∅ := rfl
    refine ⟨?_, ?_, ?_, ?_, ?_, ?_, ?_⟩ <;> simp [hleasing, hevents, hdeadlines]
  intro hno
  have hall := (hin.tail hmove).grows
  have hno' := hno.of_grows hgrow
  have hm := hm hno'
  have hself := hmove.self_eq.1
  have hagreed := (hin.tail hmove).agreed hno
  have hwrap := (hK c e t hin.allowed).2
  have hf := fun x => fixed.reach hin.reach x (hno.of_grows hall)
  have hr := fun x => (ruled (fun c e t h => (hK c e t h).2)).reach hin.reach x (hno.of_grows hall)
  cases hmove.lease_step with
  | calm table log beside => exact hm.beside (.of_same hself table log) beside
  | write r writes starts open_ table log beside =>
    refine hm.beside (.of_write hself hagreed open_ table log (fun l hl ho => ?_)) beside
    refine Turn.change hm beside.leasing (Or.inl hl) ?_
    exact hin.turn hwrap hf hr writes starts (hno.written (by rw [log]; simp)) open_ hl
      (ho.trans hin.self_eq)
  | lease id l worker found owned trigger ready first open_ stored leasing deadlines events now =>
    subst trigger
    have hbefore := Node.find_of_store first found
    have hnext := Unwrapped.next hwrap hbefore
    exact hm.lease hagreed found owned ready open_ hnext hself stored leasing deadlines events now
  | alone id l worker found owned trigger ready first open_ stored leasing deadlines events now =>
    subst trigger
    have hbefore := Node.find_of_store first found
    have hnext := Unwrapped.next hwrap hbefore
    exact hm.alone hagreed found owned ready open_ hnext hself stored leasing deadlines events now
  | grant id j epoch s worker ev found stored leasing deadlines unmarked events now =>
    refine hm.grant [ev] hself stored found (fun l hl => ?_) leasing deadlines
      (by simpa using unmarked) events now
    exact ((hin.agreed hno') id l j hl.held (Node.held_of_find found)).2.2
  | unlease id l epoch s found attempt leasing beside =>
    exact hm.unlease hagreed hself found attempt leasing beside
  | expire id j deadline armed due found leased owned stored leasing deadlines events now =>
    refine hm.expire armed due (fun l hl => ?_) found hself stored leasing deadlines events now
    have hown := ((hin.agreed hno') id l j hl.held (Node.held_of_find found)).1
    refine ⟨hown.trans owned, ?_⟩
    rcases hl with hl | hl
    · exact (congrArg Job.leaseSeq (Option.some.inj (hl.symm.trans found))).ge
    · have hruled := (ruled (fun c e t h => (hK c e t h).2)).inside hin e hno'
      have hfixed := fixed.inside hin e hno'
      rw [Function.update_self] at hruled hfixed
      rcases hruled.climbed hfixed (sane.inside hin) (by rw [hin.self_eq, Function.update_self])
        (Node.held_of_find found) owned with ⟨l', hl', hb⟩
      rw [Option.some.inj (hl.symm.trans hl')]
      exact hb.leaseSeq
  | nack id j epoch s cb acks found owned current stored leasing deadlines events now =>
    refine hm.tell _ hself stored leasing deadlines events now (by simp) (by simp) ?_
    intro id' epoch' s' at' heq
    cases heq
    exact hin.granted_here hno' (fun x => hc x (hno.of_grows hall)) found owned
      (hin.presented (fun c e t h => (hK c e t h).1) acks)
  | finalize id st standing =>
    have hnone := (fixed.inside hin e hno').claims id
    rw [Function.update_self, standing] at hnone
    cases hnone
  | reboot table log leasing armed events now =>
    refine hm.reboot hself table log (fun id l hl => ?_) leasing armed events now
    rw [Node.find, m.store.replayed] at hl
    rw [table]
    exact replay_find_mono m.store.wal_prefix_log hl

/-- Where ownership is fixed, the grants of a job come from one node. -/
theorem Reach.one_granter (h : Reach K d c) (hno : NoTakeover c.node)
    (hx : ∀ e, Exclusive (c.node e)) {x y : Endpoint} {r r' : Record} {g g' : LeaseGrant}
    {at_ at' : Time} (hg : .granted r g at_ ∈ (c.node x).events)
    (hg' : .granted r' g' at' ∈ (c.node y).events) (hid : g.id = g'.id) : x = y := by
  rcases List.append_of_mem hg with ⟨new, old, hev⟩
  rcases List.append_of_mem hg' with ⟨new', old', hev'⟩
  rcases (hx x).told new r g at_ old hev with ⟨_, ⟨l, hl⟩, _⟩
  rcases (hx y).told new' r' g' at' old' hev' with ⟨_, ⟨l', hl'⟩, _⟩
  have hown := Fixed.owner_eq (fun e => fixed.reach h e hno) (sane.reach h)
    (Node.held_of_find hl) (hid ▸ Node.held_of_find hl')
  rw [((hx x).told_mem hg (Or.inl hl)).2.1, ((hx y).told_mem hg' (Or.inl hl')).2.1,
    (names.reach h x).1, (names.reach h y).1] at hown
  exact hown

end Invariants

/-- In a run without takeovers in which workers present their own tokens and no lease number
    wraps, the grants of a job come from one node, and of two of them the later has the
    larger number and the earlier was closed in between. -/
theorem lease_exclusion (d : Deployment) (acts : List Act) (c : Cluster)
    (hrun : d.init.exec acts = some c) (hK : d.init.Meets Numbered acts) (hno : NoTakeover c.node) :
    (∀ x y r r' g g' at_ at', .granted r g at_ ∈ (c.node x).events →
      .granted r' g' at' ∈ (c.node y).events → g.id = g'.id → x = y) ∧
    ∀ e new r' g' at' mid r g at_ old,
      (c.node e).events = new ++ .granted r' g' at' :: (mid ++ .granted r g at_ :: old) →
      g.id = g'.id → g.leaseSeq < g'.leaseSeq ∧ ∃ ev ∈ mid, Closes g at_ ev := by
  have hreach := Reach.of_run hrun hK
  have hx := fun e => (exclusive (fun _ _ _ h => h)).reach hreach e hno
  refine ⟨fun x y r r' g g' at_ at' hg hg' hid => hreach.one_granter hno hx hg hg' hid, ?_⟩
  intro e new r' g' at' mid r g at_ old hev hid
  exact (hx e).order new r' g' at' _ hev mid r g at_ old rfl hid

namespace Trio

/-- The grant of a lease in the first epoch. -/
def grantUnder (leaseSeq : Nat) : LeaseGrant where
  id := job
  url := [1]
  body := [7]
  idemKey := [1]
  epoch := 1
  leaseSeq := leaseSeq
  visibilityMs := 30000
  attempt := leaseSeq

/-- Lease 1 is granted and nacked, lease 2 is granted and expires, lease 3 is granted. -/
def leasedThrice : List Act :=
  unleased ++
    [.does a (.lease 7), .takes a 3, .takes c 1, .does a (.ack job 1 1 false),
      .does a (.advance 1000), .does a (.lease 8), .takes a 6, .takes b 1, .does a (.advance 30000),
      .does a .tick, .does a (.lease 9), .takes a 13, .takes c 2]

/-- What happened between the last two grants. -/
def betweenGrants : List Event :=
  [.applyAcked c (.lease job 1 3 9), .expired job 2 31000, .submitAnswered [1] kNoQuorum job]

end Trio

/-- The conditions are met by a run with three grants. -/
theorem lease_exclusion_leasedThrice : ∃ c, Trio.cluster.init.exec Trio.leasedThrice = some c ∧
    Trio.cluster.init.Meets Numbered Trio.leasedThrice ∧ NoTakeover c.node ∧
    ∃ ev ∈ Trio.betweenGrants, Closes (Trio.grantUnder 2) 1000 ev := by
  have hK : Trio.cluster.init.Meets Numbered Trio.leasedThrice := by decide +kernel
  have hshow : ∃ c, Trio.cluster.init.exec Trio.leasedThrice = some c ∧
      (∀ r ∈ c.logs, r.isTakeover = false) ∧ (c.node Trio.a).events =
        .granted (.lease Trio.job 1 3 9) (Trio.grantUnder 3) 31000 :: (Trio.betweenGrants ++
          .granted (.lease Trio.job 1 2 8) (Trio.grantUnder 2) 1000 ::
            (c.node Trio.a).events.drop 5) := run_shows (by decide +kernel)
  rcases hshow with ⟨c, hc, hlogs, hev⟩
  have hno : NoTakeover c.node := fun e r hr =>
    hlogs r (((Reach.of_run hc hK).mem_logs r).mpr ⟨e, hr⟩)
  have hex := lease_exclusion _ _ c hc hK hno
  exact ⟨c, hc, hK, hno, (hex.2 Trio.a [] _ _ _ _ _ _ _ _ hev rfl).2⟩

end Tautq
