import Tautq.Lib.Weights
import Tautq.Theory.Postings

/-!
# Weighing What Is Open

The callbacks a node waits for, and what its handler has in hand, weighed: with the duties they
stand for, or counted. What is carried from the hand into the call table or back keeps its weight
(`Carry.load`), and any other posting changes the weight by what it takes from the hand and what it
leaves there (`load_frame`).

A callback in hand whose request is not sent yet has no number of its own. It is weighed under the
next one, and weights that depend on the number are constant from there on (`Level`).

## Main definitions

* `load`: The weight of the open callbacks and of what is in hand.
* `Sequel`: The calls of a state are those of an earlier one, and newer ones.
* `openCount`: How many of the callbacks that are counted for something are open.

## Theorems

* `Carry.load`, `load_frame`: What a posting does to the weight.
* `Posting.keeps`: What entries and the parts of a resync keep, postings keep.
* `Clears.sequel`: A handler leaves calls that were there, or makes new ones.
-/

namespace Tautq

open Status

/-! ### Weights -/

section Weights

variable {M : Type}

/-- From a number on, the number does not matter. -/
def Level (g : Nat → Cont → M) (next : Nat) : Prop :=
  ∀ r k, next ≤ r → g r k = g next k

variable [AddCommMonoid M] (g : Nat → Cont → M) (δ : Duty → M)

/-- The weight of one item, the next request number being given. -/
def Item.weight (next : Nat) : Item → M
  | .fresh k => g next k
  | .taken reqId k => g reqId k
  | .duty d => δ d
  | .ticket => 0

/-- The weight of what is in hand. -/
def handWeight (next : Nat) (h : List Item) : M :=
  (h.map (Item.weight g δ next)).sum

/-- The weight of the open callbacks and of what is in hand. -/
def load (x : Node × List Item) : M :=
  weigh (fun r c => g r c.cont) x.1.calls + handWeight g δ x.1.nextReq x.2

/-- Calls are filed under numbers given out before. -/
def Shelved (n : Node) : Prop :=
  ∀ r, r ∈ n.calls → r < n.nextReq

variable {g δ} {n n' : Node} {xs ys : List Item}

theorem handWeight_append (next : Nat) (h h' : List Item) :
    handWeight g δ next (h ++ h') = handWeight g δ next h + handWeight g δ next h' := by
  rw [handWeight, List.map_append, List.sum_append, handWeight, handWeight]

theorem handWeight_singleton (next : Nat) (i : Item) :
    handWeight g δ next [i] = i.weight g δ next :=
  add_zero _

theorem handWeight_level {a b : Nat} (hl : Level g a) (hab : a ≤ b) (h : List Item) :
    handWeight g δ b h = handWeight g δ a h := by
  unfold handWeight
  refine congrArg List.sum (List.map_congr_left (fun i _ => ?_))
  cases i with
  | fresh k => exact hl b k hab
  | taken _ _ | duty _ | ticket => rfl

/-- Where the calls stay, the weight changes with the hand. -/
theorem load_frame (hc : n'.calls = n.calls) (hr : n'.nextReq = n.nextReq) (h : List Item) :
    load g δ (n', ys ++ h) + handWeight g δ n.nextReq xs =
      load g δ (n, xs ++ h) + handWeight g δ n.nextReq ys := by
  rw [load, hc, hr, handWeight_append, load, handWeight_append]
  simp only [add_assoc, add_left_comm, add_comm]

/-- What is carried keeps its weight. -/
theorem Carry.load (hc : Carry n xs n' ys) (hf : Shelved n) (hl : Level g n.nextReq)
    (h : List Item) : Tautq.load g δ (n', ys ++ h) = Tautq.load g δ (n, xs ++ h) := by
  have hskip : handWeight g δ (n.nextReq + 1) h = handWeight g δ n.nextReq h :=
    handWeight_level hl (Nat.le_succ _) h
  unfold Tautq.load
  rw [handWeight_append, handWeight_append]
  cases hc with
  | waive | spoil => exact congrArg _ (congrArg (· + _) (add_zero (0 : M)).symm)
  | sent dst body k =>
    have hnew : n.nextReq ∉ n.calls := fun hmem => lt_irrefl _ (hf _ hmem)
    have hcalls : weigh (fun r c => g r c.cont) (n.sent dst body k).calls =
        g n.nextReq k + weigh (fun r c => g r c.cont) n.calls := weigh_insert hnew _
    have hhand : handWeight g δ (n.sent dst body k).nextReq h = handWeight g δ n.nextReq h := hskip
    rw [hcalls, hhand, handWeight_singleton, add_assoc, add_left_comm]
    exact congrArg _ (congrArg _ (zero_add _))
  | refused k =>
    change _ + (handWeight g δ (n.nextReq + 1) _ + handWeight g δ (n.nextReq + 1) h) = _
    rw [hskip]
    rfl
  | finish reqId c found =>
    have hcalls : weigh (fun r c => g r c.cont) n.calls =
        g reqId c.cont + weigh (fun r c => g r c.cont) (n.calls.erase reqId) := weigh_erase found
    rw [hcalls, handWeight_singleton, add_assoc, add_left_comm]
    exact congrArg _ (congrArg _ (zero_add _).symm)

end Weights

/-! ### What postings keep -/

/-- What entries and the parts of a resync keep, postings keep. -/
theorem Posting.keeps {P : Node × List Item → Prop}
    (hentry : ∀ n xs n' ys, Booking n xs n' ys → ∀ h, P (n, xs ++ h) → P (n', ys ++ h))
    (hask : ∀ n id h, P (n, h) → P (n, .fresh (.resync id) :: h))
    (hcounter : ∀ (n : Node) h counters, P (n, h) → P ({ n with resyncInflight := counters }, h))
    {n n' : Node} {xs ys : List Item} (hp : Posting n xs n' ys) (h : List Item)
    (hx : P (n, xs ++ h)) : P (n', ys ++ h) := by
  cases hp with
  | entry entry => exact hentry n xs n' ys entry h hx
  | resync id =>
    refine Path.keeps (fun x y hmove hx => ?_) (resyncJob_parts n id h) hx
    cases hmove with
    | frame below move =>
      cases move with
      | entry entry _ _ => exact hentry _ _ _ _ entry below hx
      | ask => exact hask _ id below hx
      | counter counters => exact hcounter _ below counters hx

/-! ### The calls of an earlier state -/

/-- The calls of a state are those of an earlier one, and newer ones: numbers are not given out
    twice, so a call with an old number is an old call. -/
structure Sequel (n n' : Node) : Prop where
  next : n.nextReq ≤ n'.nextReq
  calls : ∀ r c, n'.calls.lookup r = some c → n.calls.lookup r = some c ∨
    n.nextReq ≤ r ∧ r < n'.nextReq ∧ c.deadline ≤ n'.now + n'.cfg.rpcTimeout
  commits : n.qstates.length ≤ n'.qstates.length
  cfg : n'.cfg = n.cfg
  now : n.now ≤ n'.now

/-- Every call has its deadline ahead by no more than the timeout. -/
def Due (n : Node) : Prop :=
  ∀ r c, n.calls.lookup r = some c → c.deadline ≤ n.now + n.cfg.rpcTimeout

namespace Sequel

variable {n n' n'' : Node}

theorem refl (n : Node) : Sequel n n :=
  ⟨le_rfl, fun _ _ hc => Or.inl hc, le_rfl, rfl, le_rfl⟩

theorem trans (h : Sequel n n') (h' : Sequel n' n'') : Sequel n n'' := by
  refine ⟨h.next.trans h'.next, fun r c hc => ?_, h.commits.trans h'.commits, h'.cfg.trans h.cfg,
    h.now.trans h'.now⟩
  rcases h'.calls r c hc with hc | ⟨hle, hlt, hdue⟩
  · refine (h.calls r c hc).imp_right (fun ⟨hle, hlt, hdue⟩ => ⟨hle, hlt.trans_le h'.next, ?_⟩)
    rw [h'.cfg]
    exact hdue.trans (Nat.add_le_add_right h'.now _)
  · exact Or.inr ⟨h.next.trans hle, hlt, hdue⟩

theorem of_eq (hnext : n'.nextReq = n.nextReq) (hcalls : n'.calls = n.calls)
    (hq : n.qstates.length ≤ n'.qstates.length) (hcfg : n'.cfg = n.cfg) (hnow : n.now ≤ n'.now) :
    Sequel n n' :=
  ⟨hnext.ge, fun _ _ hc => Or.inl (hcalls ▸ hc), hq, hcfg, hnow⟩

/-- The environment's choices do not matter. -/
theorem of_sched {sched : Sched} (h : Sequel { n with sched } n') : Sequel n n' :=
  ⟨h.next, h.calls, h.commits, h.cfg, h.now⟩

theorem shelved (h : Sequel n n') (hn : Shelved n) : Shelved n' := by
  intro r hr
  rcases Option.isSome_iff_exists.mp (AList.lookup_isSome.mpr hr) with ⟨c, hc⟩
  rcases h.calls r c hc with hc | ⟨_, hlt, _⟩
  · exact (hn r (AList.lookup_isSome.mp (hc ▸ rfl))).trans_le h.next
  · exact hlt

theorem due (h : Sequel n n') (hn : Due n) : Due n' := by
  intro r c hc
  rcases h.calls r c hc with hc | ⟨_, _, hdue⟩
  · rw [h.cfg]
    exact (hn r c hc).trans (Nat.add_le_add_right h.now _)
  · exact hdue

/-- A call with an old number is an old call. -/
theorem old (h : Sequel n n') {r : Nat} {c : PendingCall} (hr : r < n.nextReq)
    (hc : n'.calls.lookup r = some c) : n.calls.lookup r = some c :=
  (h.calls r c hc).resolve_right (fun hnew => absurd hr (Nat.not_lt.mpr hnew.1))

/-- A call that is closed stays closed. -/
theorem closed (h : Sequel n n') {r : Nat} (hr : r < n.nextReq) (hclosed : r ∉ n.calls) :
    r ∉ n'.calls := by
  intro hmem
  rcases Option.isSome_iff_exists.mp (AList.lookup_isSome.mpr hmem) with ⟨c, hc⟩
  exact hclosed (AList.lookup_isSome.mp (h.old hr hc ▸ rfl))

end Sequel

theorem Carry.sequel {n n' : Node} {xs ys : List Item} (hc : Carry n xs n' ys) : Sequel n n' := by
  cases hc with
  | waive | spoil => exact .of_eq rfl rfl le_rfl rfl le_rfl
  | refused k => exact ⟨Nat.le_succ _, fun _ _ hc => Or.inl hc, le_rfl, rfl, le_rfl⟩
  | sent dst body k =>
    refine ⟨Nat.le_succ _, fun r c hc => ?_, le_rfl, rfl, le_rfl⟩
    rcases lookup_insert_cases hc with ⟨rfl, rfl⟩ | ⟨_, hc⟩
    · exact Or.inr ⟨le_rfl, Nat.lt_succ_self _, le_rfl⟩
    · exact Or.inl hc
  | finish reqId c found =>
    exact ⟨le_rfl, fun r c hc => Or.inl (lookup_erase_cases hc).2, le_rfl, rfl, le_rfl⟩

theorem Booking.sequel {n n' : Node} {xs ys : List Item} (he : Booking n xs n' ys) :
    Sequel n n' := by
  cases he with
  | carry carry => exact carry.sequel
  | tell ds same told =>
    exact .of_eq same.nextReq same.calls (by rw [same.qstates]) same.cfg same.now
  | ask | resend | ran | await | lone | late | count | decide | commit | stray | tally | settle
  | resynced => exact .of_eq rfl rfl (by simp) rfl le_rfl

theorem Posting.sequel {n₁ n n' : Node} {xs ys : List Item} (hp : Posting n xs n' ys)
    (h : List Item) (hs : Sequel n₁ n) : Sequel n₁ n' :=
  hp.keeps (P := fun x => Sequel n₁ x.1) (fun _ _ _ _ he _ hx => hx.trans he.sequel)
    (fun _ _ _ hx => hx) (fun _ _ _ hx => hx.trans (.of_eq rfl rfl le_rfl rfl le_rfl)) h hs

/-- A handler leaves calls that were there, or makes new ones. -/
theorem Clears.sequel {n n' : Node} {items : List Item} (h : Clears n items n') : Sequel n n' :=
  h.keeps (P := fun x => Sequel n x.1) (fun _ _ _ _ hp h hx => hp.sequel h hx) (.refl n)

/-! ### Counting callbacks -/

/-- A callback counts if its number is in the window and it has the mark. -/
def counts (W : Nat → Bool) (m : Mark) (r : Nat) (k : Cont) : Nat :=
  if W r = true ∧ k.mark = some m then 1 else 0

/-- How many open callbacks, and callbacks in hand, are in the window and have the mark. -/
def openCount (W : Nat → Bool) (m : Mark) (x : Node × List Item) : Nat :=
  load (counts W m) (fun _ => 0) x

/-- How many of some items do. -/
abbrev handCount (W : Nat → Bool) (m : Mark) (next : Nat) (h : List Item) : Nat :=
  handWeight (counts W m) (fun _ => 0) next h

/-- From a number on, a window is open or closed. -/
def Steady (W : Nat → Bool) (next : Nat) : Prop :=
  ∀ r, next ≤ r → W r = W next

/-- What an item counts for. -/
def Item.mark : Item → Option Mark
  | .fresh k | .taken _ k => k.mark
  | .duty _ | .ticket => none

section Counts

variable {W : Nat → Bool} {m : Mark} {n n' : Node} {xs ys : List Item}

theorem Steady.level {next : Nat} (hW : Steady W next) : Level (counts W m) next := by
  intro r k hr
  rw [counts, hW r hr, counts]

theorem Steady.mono {a b : Nat} (hW : Steady W a) (hab : a ≤ b) : Steady W b :=
  fun r hr => (hW r (hab.trans hr)).trans (hW b hab).symm

theorem steady_all (next : Nat) : Steady (fun _ => true) next :=
  fun _ _ => rfl

theorem counts_le (r : Nat) (k : Cont) : counts W m r k ≤ 1 := by
  unfold counts
  split <;> decide

/-- Items with other marks do not count. -/
theorem handCount_other {next : Nat} {h : List Item} (hm : ∀ i ∈ h, i.mark ≠ some m) :
    handCount W m next h = 0 := by
  refine List.sum_eq_zero (fun w hw => ?_)
  rcases List.mem_map.mp hw with ⟨i, hi, rfl⟩
  have hi' := hm i hi
  cases i with
  | fresh k | taken r k => exact if_neg (fun h => hi' h.2)
  | duty d | ticket => rfl

theorem openCount_frame (hc : n'.calls = n.calls) (hr : n'.nextReq = n.nextReq)
    (xs ys h : List Item) : openCount W m (n', ys ++ h) + handCount W m n.nextReq xs =
      openCount W m (n, xs ++ h) + handCount W m n.nextReq ys :=
  load_frame hc hr h

/-- Where the calls stay and nothing in hand has the mark, the count stays. -/
theorem openCount_other (hc : n'.calls = n.calls) (hr : n'.nextReq = n.nextReq)
    (hx : ∀ i ∈ xs, i.mark ≠ some m) (hy : ∀ i ∈ ys, i.mark ≠ some m) (h : List Item) :
    openCount W m (n', ys ++ h) = openCount W m (n, xs ++ h) := by
  have hframe := openCount_frame (W := W) (m := m) hc hr xs ys h
  rwa [handCount_other hx, handCount_other hy] at hframe

end Counts

end Tautq
