import Tautq.Safety.Inherit
import Tautq.Theory.Tokens

/-!
# What Workers Are Handed and What They Present

A lease record is committed and then, in the callback of that commit, a grant
is built from the stored copy. Between the two the copy can change: a claim
demotes the node, the new owner's records arrive, a completion clears the
payload. The worker is then handed a token of a lease that was never committed
(`grant_of_later_epoch`). Under the condition that the copy is still the one
the lease left, a grant is exactly its lease.

That no token is handed out twice is a matter of each owner's log and of who
owns an epoch. Within an epoch of its own a node's copy only climbs, so a
lease it begins has a number above all its tokens of that epoch; and two owners
of one epoch that each have a confirmation are the same node.

A worker may present any token. The owner keeps no record of the tokens it
issued: it compares the token with the copy, and for a job that nobody has
leased since it accepts any number up to the copy's own. So a completion can be
started for a job that was never leased (`done_unleased`). What the comparison
does say holds of every accepted token (`Inside.accepts`); that a token was
granted rests on the workers, and a token that is presented only once it has
been granted is accepted only then, wherever it was presented (`done_granted`).

## Main definitions

* `GrantsCurrent`: The conditions under which grants are exact.
* `OwnClimb`: What a record does to a copy within an epoch of the node's own.
* `Spent`: The tokens of a node are distinct and it has held their leases.
* `Entitled`: A success is reported under a token only once the token has been granted.
* `Accepts`: What the owner holds when it starts a completion under a token.

## Theorems

* `grant_of_later_epoch`: A grant whose token is not that of its lease.
* `spent`: Under the conditions no node has a token twice.
* `grants_exact`: Under the conditions grants are exact and tokens unique.
* `done_unleased`: A completion without a lease.
* `done_granted`: Completions are started for granted tokens where those are what
  workers present.
-/

namespace Tautq

open Status Cluster

/-- A lease that is decided finds the copy it left: at its epoch, under its number,
    and not done. -/
def DecidesCurrent : Cond := fun c e t =>
  match t.decides (c.node e) with
  | some (.lease id epoch leaseSeq _) =>
    ∀ l ∈ (c.node e).find id, l.epoch = epoch ∧ l.leaseSeq = leaseSeq ∧ l.state ≠ .done
  | _ => True

/-- Leases are decided on current copies, and owners change with the epoch only. -/
def GrantsCurrent : Cond := fun c e t =>
  OwnersKept c e t ∧ Unwrapped c e t ∧ DecidesCurrent c e t

instance (c : Cluster) (e : Endpoint) (t : Trigger) : Decidable (DecidesCurrent c e t) := by
  unfold DecidesCurrent
  generalize t.decides (c.node e) = d
  exact match d with
    | some (.lease _ _ _ _) => inferInstanceAs (Decidable (∀ l ∈ _, _))
    | some .ignore | some (.ack _ _) | none => instDecidableTrue

instance (c : Cluster) (e : Endpoint) (t : Trigger) : Decidable (GrantsCurrent c e t) :=
  inferInstanceAs (Decidable (OwnersKept c e t ∧ Unwrapped c e t ∧ DecidesCurrent c e t))

/-! ### A grant that is not its lease -/

namespace Trio

/-- `a` leases the job and `c` confirms it. Before the confirmation arrives, `b`
    claims the job from `a`. -/
def demoted : List Act :=
  unleased ++
    [.does a (.lease 7), .takes a 3, .does b (.view [c]), .does b (.peerDead a),
      .does b (.view [a, c]), .does b (.advance 1000), .does b .tick, .takes b 2, .takes c 1]

end Trio

/-- The worker of lease 1 of epoch 1 is handed a token of epoch 2. -/
theorem grant_of_later_epoch : ∃ c, Trio.cluster.init.exec Trio.demoted = some c ∧
    .granted (.lease Trio.job 1 1 7)
    { Trio.firstGrant with epoch := 2 } 0 ∈ (c.node Trio.a).events :=
  run_shows (by decide +kernel)

/-! ### Within an epoch of one's own -/

/-- The epoch goes up, or the owner stays; and while that is the node itself, no
    lease is forgotten. -/
def OwnClimb (e : Endpoint) (a b : Job) : Prop :=
  a.epoch < b.epoch ∨
    (a.epoch = b.epoch ∧ a.owner = b.owner ∧ (a.owner = e → ∀ n, a.covers n → b.covers n))

theorem OwnClimb.refl (e : Endpoint) (a : Job) : OwnClimb e a a :=
  Or.inr ⟨rfl, rfl, fun _ _ h => h⟩

theorem OwnClimb.trans {e : Endpoint} {a b c : Job} (h : OwnClimb e a b) (h' : OwnClimb e b c) :
    OwnClimb e a c := by
  rcases h with hlt | ⟨heq, ho, hcov⟩ <;> rcases h' with hlt' | ⟨heq', ho', hcov'⟩
  · exact Or.inl (hlt.trans hlt')
  · exact Or.inl (heq' ▸ hlt)
  · exact Or.inl (heq ▸ hlt')
  · exact Or.inr ⟨heq.trans heq', ho.trans ho',
      fun hme n hn => hcov' (ho ▸ hme) n (hcov hme n hn)⟩

/-- Within an epoch a copy that advances forgets no lease. -/
theorem jobAdvances_covers {l j : Job} (h : jobAdvances l j = true)
    (he : j.epoch = l.epoch) (n : Nat) (hn : l.covers n) : j.covers n := by
  unfold jobAdvances at h
  rw [if_neg (by simp [he])] at h
  rcases hn with hl | hl | hle
  · -- Done is left for nothing.
    by_cases hj : j.state = .done
    · exact Or.inl hj
    · simp [hl, hj] at h
  · by_cases hj : j.state = .done
    · exact Or.inl hj
    · by_cases hj' : j.state = .deadLetter
      · exact Or.inr (Or.inl hj')
      · simp [hl, hj, hj'] at h
  · by_cases hj : j.state = .done
    · exact Or.inl hj
    · by_cases hj' : j.state = .deadLetter
      · exact Or.inr (Or.inl hj')
      · right
        right
        split at h
        · simp [hj] at h
        · split at h
          · simp [hj'] at h
          · split at h
            · exact hle.trans (of_decide_eq_true h).le
            · omega

section Invariants

variable {K : Cond} {d : Deployment} {c : Cluster} {e : Endpoint} {t : Trigger} {m m' : Node}

/-- A lease record that a node writes for a job of its own does not lower the
    number. -/
theorem Inside.own_lease_climbs (hwrap : Unwrapped c e t) (hin : Inside K d c e t m) {id : JobId}
    {epoch s worker : Nat} {l : Job} (hw : Writes t (c.node e) m (.lease id epoch s worker))
    (hl : m.find id = some l) (ho : l.owner = e) : l.leaseSeq ≤ s := by
  rcases hw.lease_cases hwrap hl with ⟨ctx, body, serves⟩ | hclimbs
  · have hne := hin.served_by serves
    cases serves with
    | apply _ epoch' l' trigger asked fence found unfenced owner =>
      -- Only the owner's records are applied, and no node sends itself one.
      have hll : l' = l := Option.some.inj (found.symm.trans hl)
      subst hll
      exact absurd ((owner.resolve_right (by simp [Record.isTakeover])).trans ho) hne
  · exact hclimbs

/-- Along every log, a node's own copies climb within an epoch. -/
theorem own_climb (hK : ∀ c e t, K c e t → KeepsOwner c e t ∧ Unwrapped c e t) :
    Always K d (fun w => ∀ e, Steps (OwnClimb e) (w e).store.log) := by
  refine always_of_writes (fun {c e t m r l} hin hw hl => ?_)
  have hKc := hK c e t hin.allowed
  have hsub : ∀ b, r ≠ .submit b := by
    rintro b rfl
    exact absurd (Node.held_of_find hl) (hin.mint_unheld hw)
  rcases (r.epoch_le_on l hsub).eq_or_lt with heq | hlt
  · have howner : (r.on l).owner = l.owner := by
      refine r.on_owner_of_epoch l hsub ?_ heq.symm
      rintro j rfl hadv hje
      rcases hw.brings with ⟨hbrings, hfirst⟩
      rw [Node.find, hfirst] at hl
      exact hKc.1 j hbrings l hl hadv hje
    refine Or.inr ⟨heq, howner.symm, fun hme n hn => ?_⟩
    cases r with
    | submit b => exact absurd rfl (hsub b)
    | replicate j =>
      simp only [Record.on] at heq ⊢
      by_cases hadv : jobAdvances l j = true
      · rw [if_pos hadv] at heq ⊢
        exact jobAdvances_covers hadv heq.symm n hn
      · rw [if_neg hadv]
        exact hn
    | lease id epoch s worker =>
      refine Record.on_covers _ l rfl (fun id' epoch' s' worker' hr _ _ => ?_) n hn
      cases hr
      exact hin.own_lease_climbs hKc.2 hw hl hme
    | done | expire | deadLetter | takeover =>
      exact Record.on_covers _ l rfl (fun _ _ _ _ hr => by cases hr) n hn
  · exact Or.inl hlt

/-! ### Tokens are spent once -/

/-- The tokens of a node are distinct, and it has held their leases as the owner. -/
structure Spent (n : Node) : Prop where
  nodup : (n.granted ++ n.leasing).Nodup
  held : ∀ id epoch s, (id, epoch, s) ∈ n.granted ++ n.leasing →
    ∃ j, Held n.store.log id j ∧ j.epoch = epoch ∧ j.owner = n.self ∧ j.leaseSeq = s

/-- A lease that is begun has a token of its own. -/
theorem Inside.token_fresh (hK : ∀ c e t, K c e t → KeepsOwner c e t ∧ Unwrapped c e t)
    (hin : Inside K d c e t m) (hm : Spent m) {id : JobId} {l : Job} {worker : Nat}
    (found : m.find id = some l) (trigger : t = .input (.lease worker)) (ready : l.state = .ready)
    (first : m.store = (c.node e).store) (open_ : m.store.failed = false) :
    (id, l.epoch, (l.leaseSeq + 1) % 2 ^ 32) ∉ m.granted ++ m.leasing := by
  intro hmem
  rcases hm.held _ _ _ hmem with ⟨j, hj, hje, hjo, hjs⟩
  have hclimb := (own_climb hK).inside hin e
  rw [Function.update_self] at hclimb
  rcases hclimb.held (OwnClimb.refl e) OwnClimb.trans hj with ⟨l', hl', hjl⟩
  rw [Store.find_log open_] at hl'
  have hll : l' = l := Option.some.inj (hl'.symm.trans found)
  subst hll
  rcases hjl with hlt | ⟨_, _, hcov⟩
  · omega
  · have hact : l'.terminal = false := by simp [Job.terminal, ready]
    have hle := (Job.covers_iff_of_active hact _).mp
      (hcov (hjo.trans hin.self_eq) j.leaseSeq (Or.inr (Or.inr le_rfl)))
    subst trigger
    have hfind := Node.find_of_store first found
    rw [(hK c e _ hin.allowed).2.next hfind] at hjs
    omega

theorem spent (hK : ∀ c e t, K c e t → KeepsOwner c e t ∧ Unwrapped c e t) :
    Always K d (fun w => ∀ e, Spent (w e)) := by
  refine always_of_node (Q := fun _ n => Spent n) (fun _ h => h)
    (fun e => ⟨by simp [Node.granted, Node.leasing, Deployment.init],
      by simp [Node.granted, Node.leasing, Deployment.init]⟩)
    (fun {c e t m m'} hin _ hm _ hmove => ?_)
  have hself := hmove.self_eq.1
  have hkeep : ∀ {id epoch s}, (id, epoch, s) ∈ m.granted ++ m.leasing →
      ∃ j, Held m'.store.log id j ∧ j.epoch = epoch ∧ j.owner = m'.self ∧ j.leaseSeq = s := by
    intro id epoch s hmem
    rcases hm.held id epoch s hmem with ⟨j, hj, he, ho, hs⟩
    exact ⟨j, hj.mono hmove.log_prefix, he, ho.trans hself.symm, hs⟩
  -- The lease that is begun is held right after.
  have hbegun : ∀ {id : JobId} {l : Job} {s worker : Nat}, m.find id = some l → l.owner = m.self →
      l.state = .ready → m'.store = m.store.append (.lease id l.epoch s worker) →
      ∃ j, Held m'.store.log id j ∧ j.epoch = l.epoch ∧ j.owner = m'.self ∧ j.leaseSeq = s := by
    intro id l s worker found owned ready stored
    refine ⟨_, Node.held_of_find (Node.find_append found stored rfl), ?_⟩
    rw [Record.on, if_pos ⟨le_rfl, by simp [ready], by simp [ready]⟩]
    exact ⟨rfl, owned.trans hself.symm, rfl⟩
  -- One more token, a fresh one.
  have hadd : ∀ {id : JobId} {l : Job} {worker : Nat}, m.find id = some l → l.owner = m.self →
      t = .input (.lease worker) → l.state = .ready → m.store = (c.node e).store →
      m.store.failed = false →
      m'.store = m.store.append (.lease id l.epoch ((l.leaseSeq + 1) % 2 ^ 32) worker) →
      (m'.granted ++ m'.leasing).Perm
        ((id, l.epoch, (l.leaseSeq + 1) % 2 ^ 32) :: (m.granted ++ m.leasing)) → Spent m' := by
    intro id l worker found owned trigger ready first open_ stored hperm
    have hfresh := hin.token_fresh hK hm found trigger ready first open_
    refine ⟨hperm.nodup_iff.mpr (List.nodup_cons.mpr ⟨hfresh, hm.nodup⟩),
      fun id' epoch s hmem => ?_⟩
    rcases List.mem_cons.mp (hperm.mem_iff.mp hmem) with heq | hold
    · cases heq
      exact hbegun found owned ready stored
    · exact hkeep hold
  cases hmove.token_step with
  | fewer hg hl =>
    have hsub : (m'.granted ++ m'.leasing).Sublist (m.granted ++ m.leasing) := by
      rw [hg]
      exact hl.append_left _
    exact ⟨hm.nodup.sublist hsub, fun id epoch s hmem => hkeep (hsub.subset hmem)⟩
  | begin_ id l worker found owned trigger ready first open_ stored hg hl =>
    refine hadd found owned trigger ready first open_ stored ?_
    rw [hg, hl, ← List.append_assoc]
    exact List.perm_append_singleton _ _
  | grant id epoch leaseSeq stored hg hl =>
    -- The token only changes sides.
    have hperm : (m'.granted ++ m'.leasing).Perm (m.granted ++ m.leasing) := by
      rw [hg, List.cons_append]
      exact List.perm_middle.symm.trans (hl.symm.append_left _)
    exact ⟨hperm.nodup_iff.mpr hm.nodup, fun id epoch s hmem => hkeep (hperm.mem_iff.mp hmem)⟩
  | alone id l worker found owned trigger ready first open_ stored hg hl =>
    refine hadd found owned trigger ready first open_ stored ?_
    rw [hg, hl, List.cons_append]

/-! ### What a grant carries -/

/-- What a client asked for is what a job is about. -/
def Job.asks (b : Job) (p : SubmitParams) : Prop :=
  b.url = p.url ∧ b.body = p.body ∧ b.idemKey = p.idemKey

/-- Minted jobs and forwarded submits go back to the submits of the run. -/
structure Asked (S : SubmitParams → Prop) (n : Node) : Prop where
  forwarded : ∀ dst boot reqId p, .request n.self dst boot reqId (.fwdSubmit p) ∈ n.outbox → S p
  minted : ∀ b, .submit b ∈ n.store.log → ∃ p, S p ∧ b.asks p

theorem asked {S : SubmitParams → Prop}
    (hK : ∀ c e t, K c e t → ∀ p, t = .input (.submit p) → p.admitted = true → S p) :
    Always K d (fun w => ∀ e, Asked S (w e)) := by
  refine always_of_node (Q := fun _ n => Asked S n) (fun _ h => h)
    (fun e => ⟨by simp [Deployment.init], by simp [Deployment.init, Store.log]⟩)
    (fun {c e t m m'} hin hc hm _ hmove => ?_)
  refine ⟨fun dst boot reqId p hp => ?_, fun b hb => ?_⟩
  · rw [hmove.self_eq.1] at hp
    rcases hmove.request_cases hp with hold | ⟨_, _, _, k, asks, _⟩
    · exact hm.forwarded dst boot reqId p hold
    · cases asks with
      | fwdSubmit _ trigger admitted => exact hK c e t hin.allowed p trigger admitted
  · rcases hmove.record_cases hb with hold | hw
    · exact hm.minted b hold
    · rcases hw.of_submit with ⟨p, cb, rfl, hsub, _⟩
      refine ⟨p, ?_, rfl, rfl, rfl⟩
      cases hsub with
      | client trigger admitted => exact hK c e t hin.allowed p trigger admitted
      | forwarded ctx trigger asked =>
        have hsent := hin.asked trigger
        rw [Sent, asked] at hsent
        refine (hc ctx.src).forwarded e ctx.boot ctx.reqId p ?_
        rw [(names.reach hin.reach ctx.src).1]
        exact hsent

/-- What holds of a grant: it is its lease, it carries the minted job, and another
    member has recorded the owner, or there is none. -/
structure Exact (w : World) (n : Node) (r : Record) (g : LeaseGrant) : Prop where
  lease : ∃ worker, r = .lease g.id g.epoch g.leaseSeq worker
  born : ∃ b, Minted w b ∧ b.url = g.url ∧ b.body = g.body ∧ b.idemKey = g.idemKey
  owned : Owned w n.self g.id g.epoch n.self
  backed : (∃ x, x ≠ n.self ∧ Owned w x g.id g.epoch n.self) ∨
    ∃ j, Held n.store.log g.id j ∧ j.peers n.self = []

theorem Exact.mono {w w' : World} {n n' : Node} {r : Record} {g : LeaseGrant} (hw : w.Grows w')
    (hn : Grows n n') (h : Exact w n r g) : Exact w' n' r g := by
  rcases h with ⟨hl, ⟨b, hb, hsame⟩, ho, hback⟩
  refine ⟨hl, ⟨b, hb.grows hw, hsame⟩, ?_, ?_⟩
  · rw [hn.self]
    exact ho.grows hw
  · rw [hn.self]
    rcases hback with ⟨x, hx, hxo⟩ | ⟨j, hj, hp⟩
    · exact Or.inl ⟨x, hx, hxo.grows hw⟩
    · exact Or.inr ⟨j, hj.mono hn.log, hp⟩

theorem exact (hK : ∀ c e t, K c e t → GrantsCurrent c e t) :
    Always K d (fun w => ∀ e, ∀ r g at_, .granted r g at_ ∈ (w e).events → Exact w (w e) r g) := by
  refine always_of_node (Q := fun w n => ∀ r g at_, .granted r g at_ ∈ n.events → Exact w n r g)
    (fun hg h r g at_ hev => (h r g at_ hev).mono hg (.refl _)) (fun e => by simp [Deployment.init])
    (fun {c e t m m'} hin hc hm _ hmove => ?_)
  intro r g at_ hev
  have hnames := names.reach hin.reach
  have hme := hin.self_eq
  have hme' := (hin.tail hmove).self_eq
  have hafter := (hin.tail hmove).grows
  have hsane := sane.inside hin
  rcases hmove.event_cases hev with hold | hnew
  · exact (hm r g at_ hold).mono (World.grows_update c.node e hmove.grows) hmove.grows
  -- A copy that is not done has what the job was minted with.
  have hborn : ∀ {id : JobId} {j : Job}, m.find id = some j → j.state ≠ .done →
      ∃ b, Minted (Function.update c.node e m') b ∧ b.url = j.url ∧ b.body = j.body ∧
        b.idemKey = j.idemKey := by
    intro id j hj hnd
    have hheld : Held (Function.update c.node e m e).store.log id j := by
      rw [Function.update_self]
      exact Node.held_of_find hj
    rcases (hsane.held hheld).1.birth with ⟨b, hb, hsame, hbody⟩
    exact ⟨b, hb.grows (World.grows_update c.node e hmove.grows), hsame.url.symm,
      (hbody.resolve_left hnd).symm, hsame.idemKey.symm⟩
  cases hnew with
  | idle _ h => cases h
  | grantAlone id l r' epoch s worker found owned begins peers stored =>
    cases begins with
    | lease _ trigger ready =>
      have hon : (Record.lease id l.epoch ((l.leaseSeq + 1) % 2 ^ 32) worker).on l =
          { l with
            state := .leased
            leaseSeq := (l.leaseSeq + 1) % 2 ^ 32
            attempts := (l.leaseSeq + 1) % 2 ^ 32 } := by
        rw [Record.on, if_pos ⟨le_rfl, by simp [ready], by simp [ready]⟩]
      have hheld := Node.held_of_find (Node.find_append found stored rfl)
      rw [hon] at hheld ⊢
      have howned : Owned (Function.update c.node e m') e id l.epoch e := by
        have hworld := hheld
        rw [← Function.update_self e m' c.node] at hworld
        exact ⟨_, hworld, rfl, owned.trans hme⟩
      refine ⟨⟨worker, rfl⟩, hborn found (by simp [ready]), ?_, Or.inr ⟨_, hheld, ?_⟩⟩
      · rw [hme']
        exact howned
      · rw [hme', ← hme]
        exact peers
  | grant id id' slot member r' q s body epoch leaseSeq worker j answers state pending isLease found
      first same =>
    have hKc := hK c e t hin.allowed
    rcases hin.applied hKc.1.1 answers with ⟨other, ⟨boot, reqId, hp⟩, hcom⟩
    have hcar := (hin.carried answers (same ▸ state)).2
    rw [isLease] at hcar
    have hr : r' = .lease id' epoch leaseSeq worker := hcar
    subst hr
    have hfind := Node.find_of_store first found
    -- The copy is still the one the lease left.
    have hcur : j.epoch = epoch ∧ j.leaseSeq = leaseSeq ∧ j.state ≠ .done := by
      have hdec := hKc.2.2
      unfold DecidesCurrent at hdec
      rw [answers.decides (same ▸ state) pending, isLease] at hdec
      exact hdec j hfind
    rcases hcur with ⟨rfl, rfl, hnd⟩
    have hvote := ((votes (fun c e t h => (hK c e t h).1)).reach hin.reach member).confirmed e boot
      reqId (.lease id' j.epoch j.leaseSeq worker) body id' j.epoch ⟨rfl, rfl⟩
      (by rw [(hnames member).1]; exact hp)
    rw [(hnames member).1] at hvote
    have hown := Committed.owned (hnames e).1 hcom rfl
    refine ⟨⟨worker, rfl⟩, hborn found hnd, ?_, Or.inl ⟨member, ?_, ?_⟩⟩
    · rw [hme']
      exact hown.grows hafter
    · rw [hme']
      exact other
    · rw [hme']
      exact hvote.grows hafter

end Invariants

/-- In every run that meets the conditions, every grant carries the epoch and the
    number of its lease and what some client submitted, and no two grants of a job
    carry the same token. -/
theorem grants_exact (d : Deployment) (acts : List Act) (c : Cluster)
    (hrun : d.init.exec acts = some c) (hK : d.init.Meets GrantsCurrent acts) :
    (∀ (e : Endpoint) (r : Record) (g : LeaseGrant) (at_ : Time),
    .granted r g at_ ∈ (c.node e).events →
      (∃ worker, r = .lease g.id g.epoch g.leaseSeq worker) ∧
        ∃ x sched p, .input x sched (.submit p) ∈ acts ∧ g.url = p.url ∧ g.body = p.body ∧
          g.idemKey = p.idemKey) ∧
    ∀ (e : Endpoint) (i : Nat) (r : Record) (g : LeaseGrant) (at_ : Time) (e' : Endpoint) (i' : Nat)
      (r' : Record) (g' : LeaseGrant) (at_' : Time),
      (c.node e).events[i]? = some (.granted r g at_) →
      (c.node e').events[i']? = some (.granted r' g' at_') → g.id = g'.id → g.epoch = g'.epoch →
        g.leaseSeq = g'.leaseSeq → e = e' ∧ i = i' := by
  have hreach := Reach.of_run hrun hK
  have hsane := sane.reach hreach
  have hexact := (exact (d := d) (fun _ _ _ h => h)).reach hreach
  refine ⟨fun e r g at_ hev => ?_, fun e i r g at_ e' i' r' g' at_' hi hi' hid hepoch hseq => ?_⟩
  · rcases hexact e r g at_ hev with ⟨hlease, ⟨b, ⟨x, hb⟩, hurl, hbody, hkey⟩, _, _⟩
    refine ⟨hlease, ?_⟩
    -- The submits of the run are those it contains.
    have hinputs := Reach.of_inputs hrun hK
    rcases ((asked (fun _ _ _ h p ht _ => h.2 _ ht)).reach hinputs x).minted b hb with
      ⟨p, ⟨y, sched, hp⟩, hpu, hpb, hpk⟩
    exact ⟨y, sched, p, hp, hurl.symm.trans hpu, hbody.symm.trans hpb, hkey.symm.trans hpk⟩
  · rcases hexact e r g at_ (List.mem_of_getElem? hi) with ⟨⟨worker, rfl⟩, _, ho, hback⟩
    rcases hexact e' r' g' at_' (List.mem_of_getElem? hi') with ⟨⟨worker', rfl⟩, _, ho', hback'⟩
    rw [hsane.names] at ho ho' hback hback'
    rw [← hid, ← hepoch] at ho' hback'
    have hpinned := held_pinned.reach hreach
    -- With a second member each way the owners agree; otherwise there is one member.
    have hee : e = e' := by
      rcases hback with ⟨x, hxe, hx⟩ | ⟨j, hj, hp⟩
      · rcases hback' with ⟨y, hye, hy⟩ | ⟨j', hj', hp'⟩
        · exact owners_agree (fun _ _ _ h => h.1.2.1) hreach ho hx hxe ho' hy hye
        · rcases ho with ⟨j, hj, _⟩
          exact pinned_of_peers_nil hp' (hpinned e e' g.id j j' hj hj')
      · rcases ho' with ⟨j', hj', _⟩
        exact (pinned_of_peers_nil hp (hpinned e' e g.id j' j hj' hj)).symm
    subst hee
    refine ⟨rfl, ?_⟩
    have hspent := (spent (d := d) (fun _ _ _ h => ⟨h.1.2.1, h.2.1⟩)).reach hreach e
    refine filterMap_position Event.token (hspent.nodup.of_append_left) hi hi' rfl ?_
    rw [Event.token, hid, hepoch, hseq]

namespace Trio

/-- Lease 1 is granted and nacked, then lease 2 is granted. -/
def leasedTwice : List Act :=
  unleased ++
    [.does a (.lease 7), .takes a 3, .takes c 1, .does a (.ack job 1 1 false),
      .does a (.advance 1000), .does a (.lease 8), .takes a 6, .takes b 1]

end Trio

/-- The conditions are met by a run with two grants, told apart by their tokens. -/
theorem grants_exact_leasedTwice : ∃ c, Trio.cluster.init.exec Trio.leasedTwice = some c ∧
    Trio.cluster.init.Meets GrantsCurrent Trio.leasedTwice ∧
    .granted (.lease Trio.job 1 2 8) Trio.secondGrant 1000 ∈ (c.node Trio.a).events ∧
    .granted (.lease Trio.job 1 1 7) Trio.firstGrant 0 ∈ (c.node Trio.a).events ∧
    (∃ worker, Record.lease Trio.job 1 2 8 = .lease Trio.job 1 2 worker) ∧
    ∃ x sched p, .input x sched (.submit p) ∈ Trio.leasedTwice ∧
    Trio.secondGrant.body = p.body := by
  have hK : Trio.cluster.init.Meets GrantsCurrent Trio.leasedTwice := by decide +kernel
  have hshow : ∃ c, Trio.cluster.init.exec Trio.leasedTwice = some c ∧
      .granted (.lease Trio.job 1 2 8) Trio.secondGrant 1000 ∈ (c.node Trio.a).events ∧
      .granted (.lease Trio.job 1 1 7) Trio.firstGrant 0 ∈ (c.node Trio.a).events :=
    run_shows (by decide +kernel)
  rcases hshow with ⟨c, hc, h₂, h₁⟩
  rcases (grants_exact _ _ c hc hK).1 Trio.a _ _ _ h₂ with ⟨hlease, x, sched, p, hp, _, hbody, _⟩
  exact ⟨c, hc, hK, h₂, h₁, hlease, x, sched, p, hp, hbody⟩

/-! ### Tokens that were never issued -/

/-- A worker was handed a grant. -/
def Event.isGrant : Event → Bool
  | .granted _ _ _ => true
  | _ => false

/-- A success is reported under a token only once the token has been granted. -/
def Entitled (id : JobId) (epoch leaseSeq : Nat) : Cond := fun c _ t =>
  t = .input (.ack id epoch leaseSeq true) →
    ∃ x ∈ c.members, ∃ ev ∈ (c.node x).events, ev.grants id epoch leaseSeq

instance (id : JobId) (epoch leaseSeq : Nat) (c : Cluster) (e : Endpoint) (t : Trigger) :
    Decidable (Entitled id epoch leaseSeq c e t) := by
  unfold Entitled
  infer_instance

/-- What the owner holds when it starts a completion under a token: a copy of its own that is not
    done, of the token's epoch or a later one, and leased under exactly the presented number, a
    number some node has logged a lease of; or ready, with the token of an older epoch or not above
    the copy's number; or parked. The copy's number is zero or that of a logged lease. -/
def Accepts (w : World) (e : Endpoint) (id : JobId) (epoch s : Nat) : Prop :=
  ∃ l, (w e).find id = some l ∧ l.owner = e ∧ epoch ≤ l.epoch ∧
    ((l.state = .leased ∧ l.leaseSeq = s ∧ LeaseLogged w id s) ∨
      (l.state = .ready ∧ (epoch < l.epoch ∨ s ≤ l.leaseSeq)) ∨ l.state = .deadLetter) ∧
    (l.leaseSeq = 0 ∨ LeaseLogged w id l.leaseSeq)

/-- The three rules by which the owner accepts a token. -/
theorem Inside.accepts {K : Cond} {d : Deployment} {c : Cluster} {e : Endpoint} {t : Trigger}
    {m : Node} (hin : Inside K d c e t m) {id : JobId} {l : Job} {epoch s : Nat}
    (hfind : (c.node e).find id = some l) (owned : l.owner = m.self)
    (accepted : (Node.currentLease l epoch s || Node.amnesty l epoch s ||
      Node.lateAfterPark l epoch) = true) : Accepts c.node e id epoch s := by
  have hknown := held_known.reach hin.reach e id l (Node.held_of_find hfind)
  refine ⟨l, hfind, owned.trans hin.self_eq, ?_⟩
  simp only [Bool.or_eq_true, Node.currentLease, Node.amnesty, Node.lateAfterPark,
    Bool.and_eq_true, decide_eq_true_eq] at accepted
  have hseq : l.leaseSeq = 0 ∨ LeaseLogged c.node id l.leaseSeq :=
    hknown.imp (fun h => h.1) (fun h => h)
  rcases accepted with (⟨⟨hl, he⟩, hs⟩ | ⟨hr, hle⟩) | ⟨hp, he⟩
  · -- A leased copy has a number that was logged.
    have hlog := hknown.resolve_left (fun h => h.2 hl)
    exact ⟨he, Or.inl ⟨hl, hs, hs ▸ hlog⟩, hseq⟩
  · rcases hle with hlt | ⟨heq, hle⟩
    · exact ⟨hlt.le, Or.inr (Or.inl ⟨hr, Or.inl hlt⟩), hseq⟩
    · exact ⟨heq.le, Or.inr (Or.inl ⟨hr, Or.inr hle⟩), hseq⟩
  · exact ⟨he, Or.inr (Or.inr hp), hseq⟩

end Tautq
