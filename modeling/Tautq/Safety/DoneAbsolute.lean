import Tautq.Safety.Runs

/-!
# A Done Copy Stays Done

Every transition record leaves a done copy done. A full copy need not: the
merge order looks at the epoch first, so a successor that never heard of a
completion overwrites it with its own copy (`done_overwritten`).

The condition is that no full copy of a higher epoch that is not done reaches a
done copy. Under it a done copy stays done through every later step, a restart
included. A restart replays the file, which can have one record more than the
node has applied, so what is kept is that the copy is done in the table and in
what the file replays to (`Settled`).

## Main definitions

* `SparesDone`: The condition.

## Theorems

* `done_overwritten`: A done copy that is overwritten.
* `StoreStep.settled`: What one move keeps.
* `done_stays`: What a whole run keeps.
-/

namespace Tautq

open Status Cluster

/-- No full copy of a higher epoch that is not done reaches a done copy. -/
def SparesDone : Cond := fun c e t =>
  ∀ j ∈ t.brings (c.node e), ∀ l ∈ (c.node e).find j.id, l.state = .done → l.epoch < j.epoch →
    j.state = .done

instance (c : Cluster) (e : Endpoint) (t : Trigger) : Decidable (SparesDone c e t) :=
  inferInstanceAs (Decidable (∀ j ∈ t.brings (c.node e), ∀ l ∈ (c.node e).find j.id,
    l.state = .done → l.epoch < j.epoch → j.state = .done))

/-! ### A done copy that is overwritten -/

namespace Trio

/-- The owner completes the job alone; its successor, which never hears of it, takes
    the job over and resends its copy. -/
def unheard : List Act :=
  unleased ++
    [.does a (.lease 7), .takes a 2, .takes b 1, .takes a 3, .does a (.ack job 1 1 true),
      .does b (.view [c]), .does b (.peerDead a), .takes b 2, .takes c 2, .does b (.view [a, c]),
      .does b .tick]

end Trio

/-- The repair copy of a successor makes a done copy a leased one. -/
theorem done_overwritten : ∃ c c', Trio.cluster.init.exec Trio.unheard = some c ∧
    c.exec [.takes Trio.b 3] = some c' ∧
    ((c.node Trio.a).find Trio.job).map Job.state = some .done ∧
    ((c'.node Trio.a).find Trio.job).map Job.state = some .leased :=
  run_turns (by decide +kernel)

/-- Whether the copy a table has of a job is done. -/
def Table.isDone (tb : Table) (id : JobId) : Prop :=
  ∃ j, tb.find id = some j ∧ j.state = .done

/-- Done in the table, and in what the file replays to. -/
def Settled (s : Store) (id : JobId) : Prop :=
  s.table.isDone id ∧ (replay s.log).isDone id

/-! ### One move -/

section Moves

variable {t : Trigger} {m₀ m : Node}

theorem Table.isDone_congr {tb tb' : Table} {id : JobId} (h : tb.find id = tb'.find id) :
    tb.isDone id ↔ tb'.isDone id := by
  rw [Table.isDone, Table.isDone, h]

/-- A record that leaves done copies done leaves a table with a done copy so. -/
theorem Table.isDone_apply {tb : Table} {r : Record} {id : JobId} (h : tb.isDone id)
    (hr : ∀ l, tb.find r.jobId = some l → l.state = .done → (r.on l).state = .done) :
    (tb.apply r).isDone id := by
  rcases h with ⟨l, hl, hdone⟩
  refine ⟨_, find_apply_of_some r hl, ?_⟩
  split
  · rename_i hid
    exact hr l (hid ▸ hl) hdone
  · exact hdone

/-- A completion that is not fenced off leaves the job done. -/
theorem Table.isDone_complete {tb : Table} {id : JobId} {l : Job} {epoch : Nat} (leaseSeq : Nat)
    (h : tb.find id = some l) (he : l.epoch ≤ epoch) :
    (tb.apply (.done id epoch leaseSeq)).isDone id := by
  refine ⟨_, find_apply_of_some (.done id epoch leaseSeq) h, ?_⟩
  rw [show (Record.done id epoch leaseSeq).jobId = id from rfl, if_pos rfl]
  exact Record.on_done_self id epoch leaseSeq l he

/-- If no record being written spoils a done copy, a move leaves settled what was
    settled, and a copy that is done after it is settled. -/
theorem StoreStep.settled {s : Store} {id : JobId} (h : StoreStep t m₀ m s)
    (hw : ∀ r, Writes t m₀ m r → ∀ l, m.find r.jobId = some l → l.state = .done →
      (r.on l).state = .done)
    (hm : m.store.table.isDone id → Settled m.store id) :
    (m.store.table.isDone id → Settled s id) ∧ (s.table.isDone id → Settled s id) := by
  cases h with
  | same => exact ⟨hm, hm⟩
  | append r writes open_ =>
    -- Nothing is in doubt: the file replays to the table.
    have hreplay : (replay (m.store.append r).log).find id = (m.store.append r).table.find id :=
      Store.find_log (s := m.store.append r) open_ id
    have hself : (m.store.append r).table.isDone id → Settled (m.store.append r) id :=
      fun h => ⟨h, (Table.isDone_congr hreplay).mpr h⟩
    exact ⟨fun h => hself (Table.isDone_apply h (hw r writes)), hself⟩
  | fail r limbo writes hl open_ =>
    -- The table stays; the file may have the record.
    have hself : m.store.table.isDone id → Settled (m.store.fail limbo) id := by
      intro h
      refine ⟨h, ?_⟩
      rw [m.store.log_fail limbo open_]
      rcases hl with rfl | rfl
      · rw [Option.toList_none, List.append_nil]
        exact (hm h).2
      · rw [Option.toList_some, replay_snoc]
        refine (Table.isDone_congr (Table.find_apply_congr r (Store.find_log open_) id)).mpr ?_
        exact Table.isDone_apply h (hw r writes)
    exact ⟨hself, hself⟩
  | compact d =>
    have hsame : Settled (m.store.compact d) id ↔ Settled m.store id := by
      rw [Settled, (m.store.compact_eq d).1, m.store.log_compact d, Settled]
    rw [hsame, (m.store.compact_eq d).1]
    exact ⟨hm, hm⟩
  | reopen =>
    have hopened := Table.isDone_congr (m.store.find_reopen id)
    have hself : (replay m.store.log).isDone id → Settled m.store.reopen id := by
      intro h
      exact ⟨hopened.mpr h, by rw [m.store.log_reopen]; exact h⟩
    exact ⟨fun h => hself (hm h).2, fun h => hself (hopened.mp h)⟩

end Moves

/-! ### Whole runs -/

section Runs

variable {K : Cond} {d : Deployment} {c : Cluster} {e : Endpoint} {t : Trigger} {m : Node}

/-- Under the condition no record being written spoils a done copy. -/
theorem Inside.spares_done (hK : SparesDone c e t) (hin : Inside K d c e t m) {r : Record} {l : Job}
    (hw : Writes t (c.node e) m r) (hl : m.find r.jobId = some l) (hdone : l.state = .done) :
    (r.on l).state = .done := by
  cases hr : r.full with
  | none => exact r.on_done l hr hdone
  | some j =>
    cases r with
    | submit b =>
      -- A minted id is new, so there is no copy to spoil.
      exact absurd (Node.held_of_find hl) (hin.mint_unheld hw)
    | replicate j' =>
      rcases hw.brings with ⟨hbrings, hfirst⟩
      simp only [Record.on]
      split
      · rename_i hadv
        rcases (jobAdvances_epoch hadv).eq_or_lt with heq | hlt
        · exact jobAdvances_done hadv heq.symm hdone
        · have hfind : (c.node e).find j'.id = some l := by
            rw [Node.find, ← hfirst]
            exact hl
          exact hK j' hbrings l hfind hdone hlt
      · exact hdone
    | lease | done | expire | deadLetter | takeover => cases hr

/-- A done copy is done in the file as well. -/
theorem done_settled (hK : ∀ c e t, K c e t → SparesDone c e t) :
    Always K d (fun w => ∀ e, ∀ id, (w e).store.table.isDone id → Settled (w e).store id) := by
  refine always_of_node (Q := fun _ n => ∀ id, n.store.table.isDone id → Settled n.store id)
    (fun _ h => h) ?_ (fun {c e t m m'} hin _ hm _ hmove id => ?_)
  · rintro e id ⟨j, hj, _⟩
    cases hj
  · exact (hmove.store_step.settled
      (fun r hw l hl hd => hin.spares_done (hK c e t hin.allowed) hw hl hd) (hm id)).2

/-- Done copies are still done. -/
def World.KeepsDone (w w' : World) : Prop :=
  ∀ x id, (w x).store.table.isDone id → (w' x).store.table.isDone id

/-- Under the condition a move spoils no done copy of any node. -/
theorem Inside.done_kept (hK : ∀ c e t, K c e t → SparesDone c e t) {m' : Node}
    (hin : Inside K d c e t m) (hmove : Move t (c.node e) m m') :
    World.KeepsDone (Function.update c.node e m) (Function.update c.node e m') := by
  intro x id h
  by_cases hx : x = e
  · subst hx
    have hset := (done_settled hK).inside hin x id
    rw [Function.update_self] at h hset ⊢
    exact ((hmove.store_step.settled
      (fun r hw l hl hd => hin.spares_done (hK c x t hin.allowed) hw hl hd) hset).1 h).1
  · rw [Function.update_of_ne hx] at h ⊢
    exact h

/-- In every run that meets the condition, a copy that is done stays done. -/
theorem done_stays (d : Deployment) (acts acts' : List Act) (c c' : Cluster)
    (hrun : d.init.exec acts = some c) (hrun' : c.exec acts' = some c')
    (hK : d.init.Meets SparesDone (acts ++ acts')) (e : Endpoint) (id : JobId) (j : Job)
    (hj : (c.node e).find id = some j) (hdone : j.state = .done) :
    ∃ j', (c'.node e).find id = some j' ∧ j'.state = .done := by
  rcases (Run.meets_append _ _ _ _ _ hrun).mp hK with ⟨hbefore, hafter⟩
  have hreach := Reach.of_run hrun hbefore
  -- What each move extends is that a copy done at the start is done so far.
  have hkeep := hreach.along (R := World.KeepsDone) (fun _ _ _ h => h)
    (fun hin hR hmove y id' hy => hin.done_kept (fun _ _ _ h => h) hmove y id' (hR y id' hy))
    hrun' hafter
  exact hkeep e id ⟨j, hj, hdone⟩

end Runs

namespace Trio

/-- A completion that `b` has applied. -/
def applied : List Act :=
  views ++
    [.does a (.submit params), .takes a 0, .does a (.lease 7), .takes a 2, .takes b 1,
      .does a (.ack job 1 1 true), .takes a 4]

/-- A repair copy reaches `b`, which then restarts. -/
def repaired : List Act :=
  [.does a (.advance 5000), .does a .tick, .takes a 6, .does b (.restart 2)]

end Trio

/-- The condition is met by a run in which a repair copy reaches the done copy of
    `b` before a restart. -/
theorem done_stays_repaired : ∃ c c', Trio.cluster.init.exec Trio.applied = some c ∧
    c.exec Trio.repaired = some c' ∧
    Trio.cluster.init.Meets SparesDone (Trio.applied ++ Trio.repaired) ∧
    ((c.node Trio.b).find Trio.job).map Job.state = some .done ∧
    ∃ j', (c'.node Trio.b).find Trio.job = some j' ∧ j'.state = .done := by
  have hshow : ∃ c c', Trio.cluster.init.exec Trio.applied = some c ∧
      c.exec Trio.repaired = some c' ∧
      ((c.node Trio.b).find Trio.job).map Job.state = some .done := run_turns (by decide +kernel)
  have hK : Trio.cluster.init.Meets SparesDone (Trio.applied ++ Trio.repaired) := by
    decide +kernel
  rcases hshow with ⟨c, c', hc, hc', hdone⟩
  rcases Option.map_eq_some_iff.mp hdone with ⟨j, hj, hstate⟩
  exact ⟨c, c', hc, hc', hK, hdone,
    done_stays _ _ _ c c' hc hc' hK Trio.b Trio.job j hj hstate⟩

end Tautq
