import Tautq.Safety.Answered

/-!
# Counting Resync Replies

A node asks about a job once at a time: `resyncInflight` holds the number of replies it still
expects, and while there is an entry every further stale-epoch answer is ignored. The entry is
written after the requests went out, with the number of requests made. A request the session
refuses has its callback run before that, when there is nothing to count down, so it is counted and
never answered.

So the entry is never less than the number of open requests, and is that number as long as no
send is refused (`resyncs_counted`, `resyncs_exact`). An entry that is more stays so for the rest of
the process's life, and no resync of the job starts again (`refused_resync_sticks`).

## Main definitions

* `Node.openResyncs`: The resync requests about a job that are open.
* `Tallied`: What one posting does to the entry and the open requests.

## Theorems

* `resyncs_counted`: The entry and the open requests.
* `resyncs_exact`: There is an entry just while there are open requests.
* `refused_resync_sticks`: An entry that counts a refused request stays.
-/

namespace Tautq

open Status

/-- The resync requests about a job that are open. -/
def Node.openResyncs (n : Node) (id : JobId) : Nat :=
  n.calls.entries.countP (fun e => e.2.cont.mark = some (.resync id))

/-- The open requests and those whose callback is about to run. -/
abbrev resyncLoad (id : JobId) (x : Node × List Item) : Nat :=
  openCount (fun _ => true) (.resync id) x

theorem resyncLoad_nil (n : Node) (id : JobId) : resyncLoad id (n, []) = n.openResyncs id := by
  have hcount : ∀ l : List (Sigma fun _ : Nat => PendingCall),
      (l.map (fun e => counts (fun _ => true) (.resync id) e.1 e.2.cont)).sum =
        l.countP (fun e => e.2.cont.mark = some (.resync id)) := by
    intro l
    induction l with
    | nil => rfl
    | cons e l ih =>
      rw [List.map_cons, List.sum_cons, ih, List.countP_cons, add_comm]
      simp [counts]
  rw [resyncLoad, openCount, load, weigh, hcount, Node.openResyncs]
  rfl

/-- One reply fewer. -/
def countdown : Option Int → Option Int
  | none => none
  | some k => if k - 1 ≤ 0 then none else some (k - 1)

theorem lookup_resyncCountdown (n : Node) (id id' : JobId) :
    (n.resyncCountdown id).resyncInflight.lookup id' =
      if id' = id then countdown (n.resyncInflight.lookup id) else n.resyncInflight.lookup id' := by
  unfold Node.resyncCountdown
  by_cases hid : id' = id
  · subst hid
    rw [if_pos rfl]
    split
    · next hnone => rw [hnone, countdown]
    · next k hk =>
        rw [hk, countdown]
        split
        · exact AList.lookup_erase _ _
        · exact AList.lookup_insert _
  · rw [if_neg hid]
    split
    · rfl
    · split
      · exact AList.lookup_erase_ne hid
      · exact AList.lookup_insert_ne hid

/-! ### One round of requests -/

section Rounds

variable {n : Node} {id : JobId}

/-- The requests of one round. -/
def Node.askAll (n : Node) (id : JobId) (targets : List (Nat × Endpoint)) : Node :=
  targets.foldl (fun n s => n.call s.2 (.resync id) (.resync id)
    (fun n => n.onResyncReply id kBusy .empty)) n

/-- A node that no send is refused by. -/
def Obliging (n : Node) : Prop :=
  true ∉ n.sched.busy

theorem Obliging.suffix {n n' : Node} (h : Obliging n) (hs : n'.sched.busy <:+ n.sched.busy) :
    Obliging n' :=
  fun hmem => h (hs.subset hmem)

/-- What the requests of a round do: those that are sent are open, those that are refused leave no
    trace. -/
structure Round (id : JobId) (n n' : Node) (sent : Nat) (made : Nat) : Prop where
  entries : n'.resyncInflight = n.resyncInflight
  sequel : Sequel n n'
  some_ : sent ≤ made
  all : Obliging n → sent = made
  busy : n'.sched.busy <:+ n.sched.busy
  load : ∀ h id', resyncLoad id' (n', h) = resyncLoad id' (n, h) + if id' = id then sent else 0

theorem call_round (hid : n.resyncInflight.lookup id = none) (hn : Shelved n) (dst : Endpoint) :
    ∃ sent, Round id n
    (n.call dst (.resync id) (.resync id) (fun n => n.onResyncReply id kBusy .empty))
      sent 1 := by
  unfold Node.call
  split
  · next hbusy =>
      -- Refused: there is nothing to count down yet.
      have hstill : ∀ m : Node, m.resyncInflight = n.resyncInflight →
          m.onResyncReply id kBusy .empty = m := by
        intro m hm
        have hcount : m.resyncCountdown id = m := by
          unfold Node.resyncCountdown
          rw [hm, hid]
        unfold Node.onResyncReply
        rw [hcount]
        exact if_pos (by decide)
      dsimp only
      rw [hstill { n with
        nextReq := n.nextReq + 1, sched := { n.sched with busy := n.sched.busy.tail } } rfl]
      refine ⟨0, rfl, ⟨Nat.le_succ _, fun _ _ hc => Or.inl hc, le_rfl, rfl, le_rfl⟩, Nat.zero_le _,
        fun hobl => ?_, List.tail_suffix _, fun h id' => ?_⟩
      · cases hb : n.sched.busy with
        | nil => rw [hb] at hbusy; cases hbusy
        | cons b l =>
          obtain rfl : b = true := by rwa [hb] at hbusy
          exact absurd (hb ▸ List.mem_cons_self) hobl
      · rw [ite_self, add_zero]
        have hhand : handCount (fun _ => true) (.resync id') (n.nextReq + 1) h =
            handCount (fun _ => true) (.resync id') n.nextReq h :=
          handWeight_level (steady_all _).level (Nat.le_succ _) h
        exact congrArg (_ + ·) hhand
  · have hsent := Carry.sent (n := n) dst (.resync id) (.resync id)
    refine ⟨1, rfl, ⟨hsent.sequel.next, hsent.sequel.calls, le_rfl, rfl, le_rfl⟩,
      le_rfl, fun _ => rfl, List.tail_suffix _, fun h id' => ?_⟩
    have hload : resyncLoad id' (n.sent dst (.resync id) (.resync id), [] ++ h) =
        resyncLoad id' (n, [.fresh (.resync id)] ++ h) := hsent.load hn (steady_all _).level h
    have hframe := openCount_frame (W := fun _ => true) (m := .resync id') (n := n) rfl rfl []
      [.fresh (.resync id)] h
    have hone : handCount (fun _ => true) (.resync id') n.nextReq [.fresh (.resync id)] =
        if id' = id then 1 else 0 := by
      simp [handCount, handWeight, Item.weight, counts, Cont.mark, eq_comm]
    rw [hone] at hframe
    exact hload.trans hframe

/-- A whole round. -/
theorem askAll_round (targets : List (Nat × Endpoint)) (hid : n.resyncInflight.lookup id = none)
    (hn : Shelved n) : ∃ sent, Round id n (n.askAll id targets) sent targets.length := by
  induction targets generalizing n with
  | nil =>
    exact ⟨0, rfl, .refl n, le_rfl, fun _ => rfl, List.suffix_rfl,
      fun h id' => by simp [Node.askAll]⟩
  | cons s targets ih =>
    rcases call_round hid hn s.2 with ⟨first, hfirst⟩
    rcases ih (hfirst.entries ▸ hid) (hfirst.sequel.shelved hn) with ⟨rest, hrest⟩
    refine ⟨first + rest, hrest.entries.trans hfirst.entries, hfirst.sequel.trans hrest.sequel,
      ?_, ?_, hrest.busy.trans hfirst.busy, fun h id' => ?_⟩
    · have hle := hfirst.some_
      have hle' := hrest.some_
      rw [List.length_cons]
      omega
    · intro hobl
      rw [hfirst.all hobl, hrest.all (hobl.suffix hfirst.busy), List.length_cons, add_comm]
    · refine (hrest.load h id').trans ?_
      rw [hfirst.load h id']
      split <;> omega

end Rounds

/-! ### What a posting does -/

/-- What one posting does to the entry of a job and its open requests: nothing, or a reply is
    counted down, or a round starts. -/
inductive Tallied (id : JobId) (x y : Node × List Item) : Prop where
  | same (entry : y.1.resyncInflight.lookup id = x.1.resyncInflight.lookup id)
      (load : resyncLoad id y = resyncLoad id x)
  | reply (entry : y.1.resyncInflight.lookup id = countdown (x.1.resyncInflight.lookup id))
      (load : resyncLoad id x = resyncLoad id y + 1)
  | round (made sent : Nat) (none_ : x.1.resyncInflight.lookup id = none)
      (entry : y.1.resyncInflight.lookup id = some (made : Int)) (some_ : 0 < made)
      (le : sent ≤ made)
      (all : Obliging x.1 → sent = made) (load : resyncLoad id y = resyncLoad id x + sent)

/-- A resync is a round, or nothing. -/
theorem resyncJob_tallied {n : Node} (hn : Shelved n) (id id' : JobId) (h : List Item) :
    Tallied id' (n, h) (n.resyncJob id, h) ∧ (n.resyncJob id).sched.busy <:+ n.sched.busy := by
  unfold Node.resyncJob
  split
  · exact ⟨.same rfl rfl, List.suffix_rfl⟩
  · next hnot =>
      have hid : n.resyncInflight.lookup id = none := by
        simpa using AList.lookup_eq_none.mpr hnot
      split
      · exact ⟨.same rfl rfl, List.suffix_rfl⟩
      · next j _ =>
          dsimp only
          generalize (j.peers n.self).filter (fun s => n.isAlive s.2) = targets
          rcases askAll_round targets hid hn with ⟨sent, hasked⟩
          unfold Node.askAll at hasked
          generalize targets.foldl _ n = m at hasked ⊢
          have hload := hasked.load h id'
          split
          · next hnil =>
              have hzero : sent = 0 := by
                have hle := hasked.some_
                rw [hnil] at hle
                exact Nat.le_zero.mp hle
              rw [hzero, ite_self, add_zero] at hload
              exact ⟨.same (by rw [hasked.entries]) hload, hasked.busy⟩
          · next hsome =>
              refine ⟨?_, hasked.busy⟩
              by_cases hid' : id' = id
              · subst hid'
                rw [if_pos rfl] at hload
                exact .round targets.length sent hid (AList.lookup_insert _)
                  (List.length_pos_iff.mpr hsome) hasked.some_ hasked.all hload
              · rw [if_neg hid', add_zero] at hload
                exact .same ((AList.lookup_insert_ne hid').trans (by rw [hasked.entries])) hload

theorem Booking.tallied {n n' : Node} {xs ys : List Item} (he : Booking n xs n' ys) (hn : Shelved n)
    (id : JobId) (h : List Item) : Tallied id (n, xs ++ h) (n', ys ++ h) ∧
      n'.sched.busy <:+ n.sched.busy := by
  cases he with
  | carry carry =>
    have hload : resyncLoad id (n', ys ++ h) = resyncLoad id (n, xs ++ h) :=
      carry.load hn (steady_all _).level h
    cases carry <;> exact ⟨.same rfl hload, List.suffix_rfl⟩
  | tell ds same told =>
    exact ⟨.same (by rw [same.resyncInflight])
      (openCount_other same.calls same.nextReq (by simp [duties, Item.mark]) (by simp) h),
      same.busy⟩
  | resynced reqId id' counters counted =>
    have hentry := lookup_resyncCountdown n id' id
    rw [counted] at hentry
    refine ⟨?_, List.suffix_rfl⟩
    by_cases hid : id = id'
    · subst hid
      rw [if_pos rfl] at hentry
      refine .reply hentry ?_
      have hframe : resyncLoad id ({ n with resyncInflight := counters }, [] ++ h) + _ =
          resyncLoad id (n, [.taken reqId (.resync id)] ++ h) + _ := openCount_frame rfl rfl _ _ h
      have hone : handCount (fun _ => true) (.resync id) n.nextReq [.taken reqId (.resync id)] =
          1 := by
        simp [handCount, handWeight, Item.weight, counts, Cont.mark]
      rw [hone] at hframe
      exact hframe.symm
    · rw [if_neg hid] at hentry
      exact .same hentry (openCount_other rfl rfl (by simp [Item.mark, Cont.mark, Ne.symm hid])
        (by simp) h)
  | ask k mark | ran reqId k mark =>
    exact ⟨.same rfl (openCount_other rfl rfl (by simp [duties, Item.mark, mark])
      (by simp [duties, Item.mark, mark]) h), List.suffix_rfl⟩
  | commit id' r done peers some_ =>
    exact ⟨.same rfl (openCount_other rfl rfl (by simp [duties, Item.mark])
      (List.forall_mem_map.mpr (fun _ _ => by simp [Item.mark, Cont.mark])) h), List.suffix_rfl⟩
  | resend | await | lone | late | count | decide | stray | tally | settle =>
    exact ⟨.same rfl (openCount_other rfl rfl (by simp [Item.mark, Cont.mark])
      (by simp [duties, Item.mark, Cont.mark]) h), List.suffix_rfl⟩

theorem Posting.tallied {n n' : Node} {xs ys : List Item} (hp : Posting n xs n' ys) (hn : Shelved n)
    (id : JobId) (h : List Item) : Tallied id (n, xs ++ h) (n', ys ++ h) ∧
      n'.sched.busy <:+ n.sched.busy := by
  cases hp with
  | entry entry => exact entry.tallied hn id h
  | resync id' => exact resyncJob_tallied hn id' id h

/-! ### The entry and the open requests -/

/-- The entry covers the open requests, and counts them exactly where no send was refused. -/
structure Covered (fair : Prop) (id : JobId) (x : Node × List Item) : Prop where
  none_ : x.1.resyncInflight.lookup id = none → resyncLoad id x = 0
  some_ : ∀ k, x.1.resyncInflight.lookup id = some k → 0 < k ∧ (resyncLoad id x : Int) ≤ k ∧
    (fair → (resyncLoad id x : Int) = k)

theorem Tallied.covered {fair : Prop} {id : JobId} {x y : Node × List Item}
    (htallied : Tallied id x y) (hobl : fair → Obliging x.1) (hc : Covered fair id x) :
    Covered fair id y := by
  cases htallied with
  | same entry load =>
    rcases hc with ⟨hnone, hsome⟩
    rw [← entry, ← load] at hnone hsome
    exact ⟨hnone, hsome⟩
  | reply entry load =>
    cases hk : x.1.resyncInflight.lookup id with
    | none =>
      -- Without an entry there is no request whose reply could come.
      have hzero := hc.none_ hk
      omega
    | some k =>
      rcases hc.some_ k hk with ⟨hpos, hle, hexact⟩
      rw [hk, countdown] at entry
      split at entry
      · exact ⟨fun _ => by omega, fun k' h => by cases entry.symm.trans h⟩
      · refine ⟨(fun h => by cases entry.symm.trans h), fun k' h => ?_⟩
        rw [entry, Option.some.injEq] at h
        refine ⟨by omega, by omega, fun hfair => ?_⟩
        have heq := hexact hfair
        omega
  | round made sent none_ entry some_ le all load =>
    have hzero := hc.none_ none_
    refine ⟨(fun h => by cases entry.symm.trans h), fun k h => ?_⟩
    rw [entry, Option.some.injEq] at h
    refine ⟨by omega, by omega, fun hfair => ?_⟩
    have heq := all (hobl hfair)
    omega

/-- A process that has just started asks about nothing. -/
theorem Covered.blank {fair : Prop} {n : Node} (hcalls : n.calls = ∅)
    (hentries : n.resyncInflight = ∅) (id : JobId) : Covered fair id (n, []) := by
  refine ⟨fun _ => ?_, fun k hk => ?_⟩
  · rw [resyncLoad_nil, Node.openResyncs, hcalls]
    rfl
  · rw [hentries] at hk
    cases hk

/-- What follows from how each posting treats the entry, a handler keeps. -/
theorem Clears.keeps_tallied {P : Node × List Item → Prop} {id : JobId}
    (hP : ∀ x y, Tallied id x y → y.1.sched.busy <:+ x.1.sched.busy → P x → P y) {n n' : Node}
    {items : List Item} (h : Clears n items n') (hn : Shelved n) (hx : P (n, items)) : P (n', []) :=
  (h.keeps (P := fun x => Shelved x.1 ∧ P x) (fun _ _ _ _ hp below hx =>
    ⟨(hp.sequel below (.refl _)).shelved hx.1,
      hP _ _ (hp.tallied hx.1 id below).1 (hp.tallied hx.1 id below).2 hx.2⟩) ⟨hn, hx⟩).2

/-- The entries cover the open requests along a whole life. -/
theorem life_covered {fair : Prop} {n n' : Node} {es : List (Sched × Trigger)}
    (h : n.live es = some n')
    (hfair : fair → ∀ e ∈ es, true ∉ e.1.busy) (hn : InOrder n) {id : JobId}
    (hc : Covered fair id (n, [])) : Covered fair id (n', []) := by
  have hlife := Run.exec_relation (P := fun _ n => InOrder n ∧ Covered fair id (n, []))
    (K := fun _ e => fair → true ∉ e.1.busy) n ⟨hn, hc⟩ (fun m e m' hm he hstep => ?_) es n' h
    (Run.meets_of_forall n es (fun e he _ hf => hfair hf e he))
  · exact hlife.2
  refine ⟨handle_inOrder hstep hm.1, ?_⟩
  have hkeep : ∀ x y : Node × List Item, Tallied id x y → y.1.sched.busy <:+ x.1.sched.busy →
      (fair → Obliging x.1) ∧ Covered fair id x → (fair → Obliging y.1) ∧ Covered fair id y :=
    fun _ _ ht hbusy hx => ⟨fun hfair => (hx.1 hfair).suffix hbusy, ht.covered hx.1 hx.2⟩
  rcases handle_cases hstep with ⟨boot, hclears, _⟩ | ⟨_, hclears⟩
  · refine (hclears.keeps_tallied hkeep (fun r hr => ?_) ⟨he, .blank rfl rfl id⟩).2
    exact absurd hr (AList.notMem_empty r)
  · refine (hclears.keeps_tallied hkeep hm.1.ticketed.shelved
      ⟨he, fun hnone => ?_, fun k hk => ?_⟩).2
    · exact openCount_inHand.trans (hm.2.none_ hnone)
    · rw [resyncLoad, openCount_inHand]
      exact hm.2.some_ k hk

/-- At any point of a node's life the entry of a job covers the open resync requests about it: with
    no entry there is none, and an entry is at least their number. It is their number if no send was
    refused. -/
theorem resyncs_counted {self : Endpoint} {cfg : NodeConfig} {boot : Nat}
    {es : List (Sched × Trigger)} {n : Node} (h : ({ self, cfg, boot } : Node).live es = some n)
    (id : JobId) :
    (id ∉ n.resyncInflight → n.openResyncs id = 0) ∧
    (∀ k, n.resyncInflight.lookup id = some k → 0 < k ∧ (n.openResyncs id : Int) ≤ k) ∧
    ((∀ e ∈ es, true ∉ e.1.busy) → ∀ k, n.resyncInflight.lookup id = some k →
      (n.openResyncs id : Int) = k) := by
  have hcovered := life_covered h (fun hall : ∀ e ∈ es, true ∉ e.1.busy => hall)
    (.blank rfl rfl rfl rfl) (.blank rfl rfl id)
  simp only [← resyncLoad_nil]
  exact ⟨fun hnot => hcovered.none_ (AList.lookup_eq_none.mpr hnot),
    fun k hk => ⟨(hcovered.some_ k hk).1, (hcovered.some_ k hk).2.1⟩,
    fun hall k hk => (hcovered.some_ k hk).2.2 hall⟩

namespace Trio

/-- A peer answers the copy with a stale epoch, and the node asks both what they have. -/
def doubted : List (Sched × Trigger) :=
  asked ++ [(({} : Sched), .packet (.response b a 1 1 (.replicate default) kStaleEpoch .empty))]

/-- The same, but the first of the two requests is refused by its session. -/
def refused : List (Sched × Trigger) :=
  asked ++
    [({ busy := [true] }, .packet (.response b a 1 1 (.replicate default) kStaleEpoch .empty))]

/-- The first request is answered. -/
def settled : List (Sched × Trigger) :=
  [({}, .packet (.response b a 1 3 (.resync job) kUnknownJob .empty))]

/-- The other request is answered, and another answer says that the epoch is stale. -/
def doubtedAgain : List (Sched × Trigger) :=
  [({}, .packet (.response c a 1 4 (.resync job) kUnknownJob .empty)),
    ({}, .packet (.response c a 1 2 (.replicate default) kStaleEpoch .empty))]

end Trio

/-- Two requests are open, and the entry says two. -/
theorem resyncs_counted_doubted : ∃ n, Trio.start.live Trio.doubted = some n ∧
    n.resyncInflight.lookup Trio.job = some 2 ∧ n.openResyncs Trio.job = 2 := by
  have hshow : ∃ n n', Trio.start.live Trio.doubted = some n ∧ n.live [] = some n' ∧
      n.resyncInflight.lookup Trio.job = some 2 := live_turns (by decide +kernel)
  rcases hshow with ⟨n, _, h, _, hk⟩
  have hopen := (resyncs_counted h Trio.job).2.2 (by decide) 2 hk
  exact ⟨n, h, hk, by exact_mod_cast hopen⟩

/-- From a state without an entry for a job on, and as long as no send is refused, there is an entry
    just while there are open resync requests about the job, and it is their number. So the next
    resync starts a round once all of them have been answered. -/
theorem resyncs_exact {self : Endpoint} {cfg : NodeConfig} {boot : Nat}
    {before stretch : List (Sched × Trigger)} {n₁ n₂ : Node} {id : JobId}
    (h₁ : ({ self, cfg, boot } : Node).live before = some n₁) (hnone : id ∉ n₁.resyncInflight)
    (h₂ : n₁.live stretch = some n₂) (hsent : ∀ e ∈ stretch, true ∉ e.1.busy) :
    (id ∈ n₂.resyncInflight ↔ 0 < n₂.openResyncs id) ∧
    (∀ k, n₂.resyncInflight.lookup id = some k → k = n₂.openResyncs id) ∧
    (n₂.openResyncs id = 0 → ∀ j, n₂.find id = some j →
      (j.peers n₂.self).filter (fun s => n₂.isAlive s.2) ≠ [] →
      id ∈ (n₂.resyncJob id).resyncInflight) := by
  have hnone₁ := AList.lookup_eq_none.mpr hnone
  have hstart : Covered True id (n₁, []) := by
    have hcovered : Covered False id (n₁, []) := life_covered h₁ (fun h => h.elim)
      (.blank rfl rfl rfl rfl) (.blank rfl rfl id)
    exact ⟨hcovered.none_, fun k hk => by cases hnone₁.symm.trans hk⟩
  have hn₁ := life_inOrder h₁ (.blank rfl rfl rfl rfl)
  have hcovered := life_covered h₂ (fun _ => hsent) hn₁ hstart
  rcases hcovered with ⟨hno, hsome⟩
  rw [resyncLoad_nil] at hno hsome
  have hiff : id ∈ n₂.resyncInflight ↔ 0 < n₂.openResyncs id := by
    refine ⟨fun hmem => ?_, fun hpos => by_contra fun hnot => ?_⟩
    · rcases Option.isSome_iff_exists.mp (AList.lookup_isSome.mpr hmem) with ⟨k, hk⟩
      rcases hsome k hk with ⟨hpos, _, hexact⟩
      have heq := hexact trivial
      omega
    · exact absurd (hno (AList.lookup_eq_none.mpr hnot)) hpos.ne'
  refine ⟨hiff, fun k hk => ((hsome k hk).2.2 trivial).symm, fun hzero j hj halive => ?_⟩
  rw [Node.resyncJob, if_neg (fun hmem => (hiff.mp hmem).ne' hzero), hj]
  dsimp only
  rw [if_neg halive]
  exact AList.mem_insert _ |>.mpr (Or.inl rfl)

/-- Both requests are answered, and the next stale answer makes two more. -/
theorem resyncs_exact_doubted : ∃ n₁ n₂, Trio.start.live [] = some n₁ ∧
    n₁.live (Trio.doubted ++ Trio.settled ++ Trio.doubtedAgain) = some n₂ ∧
    n₂.openResyncs Trio.job = 2 ∧ Trio.job ∈ n₂.resyncInflight := by
  have hshow : ∃ n₁ n₂, Trio.start.live [] = some n₁ ∧
      n₁.live (Trio.doubted ++ Trio.settled ++ Trio.doubtedAgain) = some n₂ ∧
      (Trio.job ∉ n₁.resyncInflight ∧ n₂.openResyncs Trio.job = 2) := live_turns (by decide +kernel)
  rcases hshow with ⟨n₁, n₂, h₁, h₂, hnone, htwo⟩
  exact ⟨n₁, n₂, h₁, h₂, htwo,
    (resyncs_exact h₁ hnone h₂ (by decide)).1.mpr (htwo.symm ▸ Nat.two_pos)⟩

/-- With one request refused, the entry says one although none is open, and another stale answer is
    ignored. -/
theorem resyncs_inexact : ∃ n₁ n₂, Trio.start.live Trio.refused = some n₁ ∧
    n₁.live Trio.doubtedAgain = some n₂ ∧ (n₂.openResyncs Trio.job = 0 ∧
      n₂.resyncInflight.lookup Trio.job = some 1 ∧
      (n₂.resyncJob Trio.job).outbox = n₂.outbox) := live_turns (by decide +kernel)

/-! ### An entry that stays -/

/-- The entry counts some replies more than there are open requests. -/
def Stuck (id : JobId) (excess : Int) (x : Node × List Item) : Prop :=
  x.1.resyncInflight.lookup id = some (excess + resyncLoad id x)

theorem Tallied.stuck {id : JobId} {excess : Int} (hpos : 0 < excess) {x y : Node × List Item}
    (htallied : Tallied id x y) (hs : Stuck id excess x) : Stuck id excess y := by
  unfold Stuck at hs ⊢
  cases htallied with
  | same entry load => rw [entry, load, hs]
  | reply entry load =>
    rw [hs, countdown, if_neg (by omega)] at entry
    rw [entry, Option.some.injEq]
    omega
  | round made sent none_ => rw [none_] at hs; cases hs

/-- An entry that is more than the number of open requests stays that much more until the process
    ends, and no resync of the job starts again. -/
theorem refused_resync_sticks {self : Endpoint} {cfg : NodeConfig} {boot : Nat}
    {before stretch : List (Sched × Trigger)} {n₁ n₂ : Node} {id : JobId} {k : Int}
    (h₁ : ({ self, cfg, boot } : Node).live before = some n₁)
    (hk : n₁.resyncInflight.lookup id = some k) (hmore : (n₁.openResyncs id : Int) < k)
    (h₂ : n₁.live stretch = some n₂) (hstretch : ∀ e ∈ stretch, e.2.restarts = false) :
    n₂.resyncInflight.lookup id = some (k - n₁.openResyncs id + n₂.openResyncs id) ∧
      n₂.resyncJob id = n₂ := by
  have hn₁ : InOrder n₁ := life_inOrder h₁ (.blank rfl rfl rfl rfl)
  have hstart : Stuck id (k - n₁.openResyncs id) (n₁, []) := by
    rw [Stuck, hk, resyncLoad_nil, sub_add_cancel]
  have hentry := (live_keeps (P := fun m => Shelved m ∧ Stuck id (k - n₁.openResyncs id) (m, []))
    (fun m m' sched t _ hclears hm => ⟨hclears.sequel.of_sched.shelved hm.1,
      hclears.keeps_tallied (fun _ _ ht _ hx => ht.stuck (by omega) hx) hm.1
        (by rw [Stuck, resyncLoad, openCount_inHand]; exact hm.2)⟩)
    h₂ hstretch ⟨hn₁.ticketed.shelved, hstart⟩).2
  rw [Stuck, resyncLoad_nil] at hentry
  refine ⟨hentry, ?_⟩
  rw [Node.resyncJob, if_pos (AList.lookup_isSome.mp (hentry ▸ rfl))]

/-- With one request refused, the entry says one although none is open, and the second stale answer
    starts nothing. -/
theorem refused_resync_sticks_doubted : ∃ n₁ n₂, Trio.start.live Trio.refused = some n₁ ∧
    n₁.live Trio.doubtedAgain = some n₂ ∧ n₂.openResyncs Trio.job = 0 ∧
    n₂.resyncInflight.lookup Trio.job = some 1 ∧ n₂.resyncJob Trio.job = n₂ := by
  have hshow : ∃ n₁ n₂, Trio.start.live Trio.refused = some n₁ ∧
      n₁.live Trio.doubtedAgain = some n₂ ∧
      (n₁.resyncInflight.lookup Trio.job = some 2 ∧ n₁.openResyncs Trio.job = 1 ∧
        n₂.openResyncs Trio.job = 0) := live_turns (by decide +kernel)
  rcases hshow with ⟨n₁, n₂, h₁, h₂, hk, hopen, hnone⟩
  have hsticks := refused_resync_sticks h₁ hk (by rw [hopen]; decide) h₂ (by decide)
  rw [hopen, hnone] at hsticks
  exact ⟨n₁, n₂, h₁, h₂, hnone, hsticks⟩

end Tautq
