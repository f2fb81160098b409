import Tautq.Safety.Tokens

/-!
# Pinned at Birth

What all copies of a job have in common, wherever they are: in a table, in a log or a
snapshot, or in a message. What was fixed at submit is the same in all of them, the
first pinned member minted the job, the pinned members are distinct and stand before the
empty slots, and the owner is one of them.

Two facts are about one copy only and are kept by every record there is. The attempts of
a copy are its lease sequence number, since the one record that sets either sets both. A
done copy has no payload, since completing empties it and nothing but a full copy
changes a done one.

## Main definitions

* `Copied`: A full copy that is somewhere.
* `Regular`: What is true of one copy by itself.
* `Pinned`: What is true of a copy in a run.

## Theorems

* `regular`: Every copy a node ever held is regular.
* `packed`: Minted jobs are pinned to distinct members.
* `filed`: What is in a file was logged, or is a copy the node held.
* `pinned_at_birth`: Every copy anywhere is pinned, and copies of one job agree.
-/

namespace Tautq

open Status Cluster

/-! ### One copy -/

/-- What is true of one copy by itself. -/
structure Regular (j : Job) : Prop where
  attempts : j.attempts = j.leaseSeq
  emptied : j.state = .done → j.body = []
  owned : j.owner ≠ {}

/-- A transition keeps a copy regular, if it does not hand the job to nobody. -/
theorem Regular.on {l : Job} {r : Record} (h : Regular l) (hr : r.full = none)
    (howner : ∀ id epoch o, r = .takeover id epoch o → o ≠ {}) : Regular (r.on l) := by
  cases r with
  | submit | replicate => cases hr
  | lease id epoch leaseSeq worker =>
    rw [Record.on]
    split
    · exact ⟨rfl, by simp, h.owned⟩
    · exact h
  | done id epoch leaseSeq =>
    rw [Record.on]
    split
    · exact ⟨h.attempts, fun _ => rfl, h.owned⟩
    · exact h
  | expire id epoch leaseSeq =>
    rw [Record.on]
    split
    · exact ⟨h.attempts, by simp, h.owned⟩
    · exact h
  | deadLetter id epoch =>
    rw [Record.on]
    split
    · exact ⟨h.attempts, by simp, h.owned⟩
    · exact h
  | takeover id epoch o =>
    rw [Record.on]
    split
    · exact ⟨h.attempts, h.emptied, howner id epoch o rfl⟩
    · exact h

section Invariants

variable {K : Cond} {d : Deployment}

theorem Inside.self_ne {c : Cluster} {e : Endpoint} {t : Trigger} {m : Node}
    (hin : Inside K d c e t m) : m.self ≠ {} := by
  rw [hin.self_eq]
  exact fun h => d.real (h ▸ hin.member)

/-- A takeover names a member of the cluster. -/
theorem Inside.taker_ne {c : Cluster} {e : Endpoint} {t : Trigger} {m : Node}
    {id : JobId} {epoch : Nat}
    {o : Endpoint} (hin : Inside K d c e t m) (hw : Writes t (c.node e) m (.takeover id epoch o)) :
    o ≠ {} := by
  rcases hin.taken_cases hw with ⟨rfl, _⟩ | ⟨ctx, _, trigger, _, rfl, _⟩
  · exact hin.self_ne
  · exact fun h => d.real (h ▸ hin.sender_member trigger)

/-- A full copy being written is regular: it was minted just now, or some node has held
    it. -/
theorem Inside.full_regular {c : Cluster} {e : Endpoint} {t : Trigger} {m : Node}
    {r : Record} {j : Job}
    (hin : Inside K d c e t m) (hc : ∀ x id j, Held (c.node x).store.log id j → Regular j)
    (hw : Writes t (c.node e) m r) (hr : r.full = some j) : Regular j := by
  rcases hin.full_origin hw hr with ⟨p, rfl, _⟩ | ⟨_, src, _, hheld⟩
  · exact ⟨rfl, by simp [Node.mintJob], hin.self_ne⟩
  · exact hc src _ j hheld

/-- Every copy a node ever held is regular. -/
theorem regular : Always K d (fun w => ∀ e id j, Held (w e).store.log id j → Regular j) := by
  refine always_of_node (Q := fun _ n => ∀ id j, Held n.store.log id j → Regular j) (fun _ h => h)
    (fun e id j hj => absurd hj (not_held_nil id j)) (fun {c e t m m'} hin hc hm _ hmove => ?_)
  refine hmove.held_rule (P := fun _ j => Regular j) hm
    (fun r j hw _ hr _ => hin.full_regular hc hw hr) (fun r l hw _ hr hfind _ => ?_)
  exact (hm _ l (Node.held_of_find hfind)).on hr (fun id epoch o heq => hin.taker_ne (heq ▸ hw))

/-- So is every full copy in a log, whether it was taken or not. -/
theorem regular_logged :
    Always K d (fun w => ∀ e, ∀ r ∈ (w e).store.log, ∀ j, r.full = some j → Regular j) :=
  always_of_records (fun hin hw _ hj => hin.full_regular (regular.reach hin.reach) hw hj)

/-! ### Minted jobs -/

section Views

-- The views list endpoints, and none that is no endpoint.
variable (hK : ∀ c e t, K c e t → ∀ peers, t = .input (.view peers) → ({} : Endpoint) ∉ peers)

include hK

theorem views :
    Always K d (fun w => ∀ e, ({} : Endpoint) ∉ (w e).peers) := by
  refine always_of_node (Q := fun _ n => ({} : Endpoint) ∉ n.peers) (fun _ h => h)
    (fun e => by simp [Deployment.init]) (fun {c e t m m'} hin _ hm _ hmove => ?_)
  rcases hmove.view_cases with heq | ⟨peers, ht, heq⟩
  · rw [heq]
    exact hm
  · rw [heq]
    exact hK c e t hin.allowed peers ht

/-- Minted jobs are pinned to distinct members. -/
theorem packed :
    Always K d (fun w => ∀ e, ∀ r ∈ (w e).store.log, ∀ b, r = .submit b → b.replicas.Packed) := by
  refine always_of_records (fun {c e t m r} hin hw b hb => ?_)
  subst hb
  have hview := (views hK).inside hin e
  rw [Function.update_self] at hview
  rcases hw.of_submit with ⟨p, _, rfl, _⟩
  exact m.pinReplicas_packed p.idemKey hin.self_ne hview

end Views

/-! ### Files -/

/-- What is in the file was logged, or is a copy the node held. -/
def Filed (s : Store) : Prop :=
  ∀ r ∈ s.file, r ∈ s.log ∨ ∃ j, r = .replicate j ∧ Held s.log j.id j

theorem Filed.mono {s s' : Store} (h : Filed s) (hlog : s.log <+: s'.log) :
    ∀ r ∈ s.file, r ∈ s'.log ∨ ∃ j, r = .replicate j ∧ Held s'.log j.id j := by
  intro r hr
  rcases h r hr with hold | ⟨j, rfl, hj⟩
  · exact Or.inl (hlog.subset hold)
  · exact Or.inr ⟨j, rfl, hj.mono hlog⟩

/-- A snapshot has copies the node holds. -/
theorem Filed.compact {s : Store} (h : Filed s)
    (hheld : ∀ id j, s.table.find id = some j → Held s.log id j) (disk : Disk) :
    Filed (s.compact disk) := by
  have hinstall : ∀ r ∈ s.install.file, r ∈ s.log ∨ ∃ j, r = .replicate j ∧ Held s.log j.id j := by
    intro r hr
    rcases List.mem_map.mp hr with ⟨j, hj, rfl⟩
    exact Or.inr ⟨j, rfl, hheld j.id j ((Table.mem_retained s.find_id j).mp hj)⟩
  have hlog := s.log_compact disk
  rw [Filed, hlog]
  intro r hr
  unfold Store.compact at hr
  split at hr
  · exact h r hr
  · cases disk with
    | durable => exact hinstall r hr
    | lost => exact h r hr
    | kept => exact hinstall r hr

theorem filed : Always K d (fun w => ∀ e, Filed (w e).store) := by
  refine always_of_node (Q := fun _ n => Filed n.store) (fun _ h => h)
    (fun e r hr => by cases hr) (fun {c e t m m'} hin _ hm _ hmove => ?_)
  have hmono := hm.mono hmove.log_prefix
  have hstep := hmove.store_step
  generalize m'.store = s at hmono hstep ⊢
  cases hstep with
  | same => exact hm
  | append r writes open_ =>
    intro r' hr'
    rcases List.mem_append.mp hr' with hold | hnew
    · exact hmono r' hold
    · left
      rw [m.store.log_append r open_]
      exact List.mem_append_right _ hnew
  | fail => exact hmono
  | compact disk => exact hm.compact (fun id j hj => Node.held_of_find hj) disk
  | reopen boot =>
    intro r' hr'
    rcases List.mem_append.mp hr' with hold | hnew
    · exact hmono r' hold
    · left
      rw [Store.log_reopen]
      exact List.mem_append_right _ hnew

/-! ### Copies anywhere -/

/-- A full copy that is somewhere: stored, in a log or a file, or in a message. -/
inductive Copied (w : World) (j : Job) : Prop where
  | stored (e : Endpoint) (id : JobId) (found : (w e).find id = some j)
  | logged (e : Endpoint) (r : Record) (mem : r ∈ (w e).store.log ∨ r ∈ (w e).store.file)
      (full : r.full = some j)
  | sent (e dst : Endpoint) (boot reqId : Nat)
      (mem : .request e dst boot reqId (.replicate j) ∈ (w e).outbox)
  | shown (e dst : Endpoint) (boot reqId : Nat) (asked : Request) (st : Status)
      (mem : .response e dst boot reqId asked st (.job j) ∈ (w e).outbox)

/-- What is true of a copy in a run: who minted it and for which submit, where it is pinned,
    and what there is of its payload. -/
structure Pinned (acts : List Act) (w : World) (j : Job) : Prop where
  minter : ∃ b, .submit b ∈ (w j.replicas.first).store.log ∧ SameJob j b
  origin : ekey j.replicas.first = j.id.origin
  packed : j.replicas.Packed
  owner : j.owner ∈ j.replicas.pinned
  attempts : j.attempts = j.leaseSeq
  asked : ∃ p, (∃ x sched, .input x sched (.submit p) ∈ acts) ∧ j.idemKey = p.idemKey ∧
    j.url = p.url ∧ j.body = if j.state = .done then [] else p.body

/-- A copy anywhere goes back to a minted job and is regular. -/
theorem Copied.born {c : Cluster} {j : Job} (hreach : Reach K d c) (h : Copied c.node j) :
    Born c.node j ∧ Regular j := by
  have hsane := sane.reach hreach
  have hheld : ∀ {e id}, Held (c.node e).store.log id j → Born c.node j ∧ Regular j :=
    fun h => ⟨(hsane.held h).1, regular.reach hreach _ _ j h⟩
  have hlogged : ∀ {e r}, r ∈ (c.node e).store.log → r.full = some j → Born c.node j ∧ Regular j :=
    fun {e r} hr hj =>
      ⟨((hsane.copies e).full r hr j hj).1, regular_logged.reach hreach e r hr j hj⟩
  cases h with
  | stored e id found => exact hheld (Node.held_of_find found)
  | logged e r mem full =>
    rcases mem with hlog | hfile
    · exact hlogged hlog full
    · rcases filed.reach hreach e r hfile with hlog | ⟨j', rfl, hj'⟩
      · exact hlogged hlog full
      · exact hheld (Option.some.inj full ▸ hj')
  | sent e dst boot reqId mem =>
    exact hheld ((hsane.copies e).sent dst boot reqId j (by rw [hsane.names]; exact mem)).1
  | shown e dst boot reqId asked st mem =>
    exact hheld ((hsane.copies e).shown dst boot reqId asked st j (by rw [hsane.names]; exact mem))

/-- What was minted for a run's submits, on views that list endpoints. -/
theorem Born.pinned {acts : List Act} {c : Cluster} {j : Job}
    (hreach : Reach (fun c e t => K c e t ∧ InputsOf acts c e t) d c)
    (hviews : ∀ x sched peers, .input x sched (.view peers) ∈ acts → ({} : Endpoint) ∉ peers)
    (hborn : Born c.node j) (hregular : Regular j) : Pinned acts c.node j := by
  have hsane := sane.reach hreach
  rcases hborn.birth with ⟨b, ⟨e, he⟩, hsame, hbody⟩
  have hfirst : j.replicas.first = e := by
    rw [hsame.replicas, ((hsane.mints e).newborn b he).first, hsane.names]
  rcases (hsane.mints e).ids b he with ⟨boot, seq, _, _, _, hid⟩
  rcases ((asked (fun _ _ _ h p ht _ => h.2 _ ht)).reach hreach e).minted b he with
    ⟨p, hp, hurl, hpbody, hkey⟩
  refine ⟨⟨b, hfirst ▸ he, hsame⟩, ?_, ?_, ?_, hregular.attempts, p, hp, hsame.idemKey.trans hkey,
    hsame.url.trans hurl, ?_⟩
  · rw [hfirst, hsame.id, hid, mintId, hsane.names]
  · rw [hsame.replicas]
    refine (packed (fun _ _ _ h peers ht => ?_)).reach hreach e _ he b rfl
    rcases h.2 _ ht with ⟨x, sched, hmem⟩
    exact hviews x sched peers hmem
  · exact List.mem_filter.mpr ⟨hborn.owner, by simpa using hregular.owned⟩
  · by_cases hdone : j.state = .done
    · rw [if_pos hdone]
      exact hregular.emptied hdone
    · rw [if_neg hdone, hbody.resolve_left hdone, hpbody]

end Invariants

/-- In every state of every run whose views list endpoints, all copies of a job agree on what
    was fixed at submit, and every copy is pinned. -/
theorem pinned_at_birth {d : Deployment} {acts : List Act} {c : Cluster}
    (hexec : d.init.exec acts = some c)
    (hviews : ∀ x sched peers, .input x sched (.view peers) ∈ acts → ({} : Endpoint) ∉ peers) :
    (∀ j j', Copied c.node j → Copied c.node j' → j.id = j'.id → SameJob j j') ∧
      ∀ j, Copied c.node j → Pinned acts c.node j := by
  have hreach := Reach.of_inputs hexec (meets_true _ acts)
  have hsane := sane.reach hreach
  refine ⟨fun j j' hj hj' hid => ?_, fun j hj => ?_⟩
  · exact (hj.born hreach).1.same_of hsane.names hsane.mints (hj'.born hreach).1 hid
  · rcases hj.born hreach with ⟨hborn, hregular⟩
    exact hborn.pinned hreach hviews hregular

namespace Trio

/-- A job is replicated to `b`, which is told that its owner is dead. -/
def taken : List Act :=
  views ++ [.does a (.submit params), .takes a 0, .does b (.view [c]), .does b (.peerDead a)]

end Trio

/-- The copy of the member that took the job over. -/
theorem pinned_at_birth_taken : ∃ c, Trio.cluster.init.exec Trio.taken = some c ∧
    ∃ j, (c.node Trio.b).find Trio.job = some j ∧ j.owner = Trio.b ∧
    Pinned Trio.taken c.node j := by
  have hshow : ∃ c, Trio.cluster.init.exec Trio.taken = some c ∧
      ((c.node Trio.b).find Trio.job).map Job.owner = some Trio.b := run_shows (by decide +kernel)
  rcases hshow with ⟨c, hc, hb⟩
  rcases Option.map_eq_some_iff.mp hb with ⟨j, hj, howner⟩
  refine ⟨c, hc, j, hj, howner, (pinned_at_birth hc (fun x sched peers hmem => ?_)).2 j
    (.stored _ _ hj)⟩
  simp only [Trio.taken, Trio.views, Act.does, Act.takes, List.cons_append, List.nil_append,
    List.mem_cons, Act.input.injEq, Input.view.injEq, reduceCtorEq, and_false, false_or, or_false,
    List.not_mem_nil] at hmem
  rcases hmem with ⟨_, _, rfl⟩ | ⟨_, _, rfl⟩ | ⟨_, _, rfl⟩ | ⟨_, _, rfl⟩ <;> decide

end Tautq
