import Mathlib.Tactic.Abel
import Tautq.Theory.Loads

/-!
# What Every Posting Keeps

Three invariants of the account, each kept by every posting.

* Numbers are drawn once, so a submit that starts to wait does so under an id no other submit waits
  under (`Ticketed`).
* What was told, what is kept and what is in hand is the same bag of duties before and after
  (`balance`).
* A submit that waits, and a commit that is undecided, counts on no more replies than callbacks for
  it are open (`Vouched`). A submit may count on fewer: a repair sends the same copy again, its
  replies count as well, and its callbacks are of the same kind.

The last one is stated for the callbacks with numbers in a window. An open window has all of them;
a window that was closed at some point has those of the requests sent before, and no callback is
added to it.

## Main definitions

* `Ticketed`, `balance`, `Vouched`: The invariants.
* `Node.expects`: How many replies a submit or a commit counts on.

## Theorems

* `Posting.ticketed`, `Posting.balanced`, `Posting.vouched`: They are kept.
-/

namespace Tautq

open Status

/-! ### Numbers -/

/-- A submit has begun whose number was drawn, and a commit that was made. -/
def Begun (n : Node) : Mark → Prop
  | .submit id => ∃ u, u < n.nextJobSeq ∧ id = mintId n.self n.boot u
  | .commit q => q < n.qstates.length
  | .resync _ => False

/-- Numbers are drawn once, and every waiting submit has its own. -/
structure Ticketed (x : Node × List Item) : Prop where
  shelved : Shelved x.1
  room : x.1.nextJobSeq + x.2.count .ticket ≤ 2 ^ 32
  waiting : ∀ id, id ∈ x.1.pendingSubmits → Begun x.1 (.submit id)

section Numbers

variable {n n' : Node} {xs ys h : List Item}

theorem Booking.numbers (he : Booking n xs n' ys) :
    n'.self = n.self ∧ n'.boot = n.boot ∧ n.nextJobSeq ≤ n'.nextJobSeq := by
  cases he with
  | carry carry => cases carry <;> exact ⟨rfl, rfl, by simp [Node.sent]⟩
  | tell ds same told => exact ⟨same.self, same.boot, same.nextJobSeq.ge⟩
  | await | lone => exact ⟨rfl, rfl, Nat.le_succ _⟩
  | ask | resend | ran | late | count | decide | commit | stray | tally | settle | resynced =>
    exact ⟨rfl, rfl, le_rfl⟩

theorem Begun.mono {m : Mark} (hb : Begun n m) (he : Booking n xs n' ys) : Begun n' m := by
  cases m with
  | submit id =>
    rcases hb with ⟨u, hu, heq⟩
    rcases he.numbers with ⟨hself, hboot, hseq⟩
    exact ⟨u, hu.trans_le hseq, by rw [hself, hboot, heq]⟩
  | commit q => exact hb.trans_le he.sequel.commits
  | resync id => exact hb

/-- The next id is new. -/
theorem Ticketed.fresh (hn : Ticketed (n, .ticket :: h)) : ¬ Begun n (.submit n.nextId) := by
  rintro ⟨u, hu, heq⟩
  have hroom : n.nextJobSeq + (h.count .ticket + 1) ≤ 2 ^ 32 := by
    have hroom := hn.room
    rwa [List.count_cons_self] at hroom
  have hnext : n.nextJobSeq = u := (mintId_inj (by omega) (by omega) heq).2.2
  omega

/-- An entry that is put in and taken out again. -/
theorem mem_insert_erase {α β : Type} [DecidableEq α] {s : AList (fun _ : α => β)}
    {a a' : α} {b : β} (h : a' ∈ (s.insert a b).erase a) : a' ∈ s := by
  rcases AList.mem_erase.mp h with ⟨hne, hmem⟩
  exact ((AList.mem_insert s).mp hmem).resolve_left hne

theorem count_map_eq_zero {α : Type} {i : Item} (l : List α) (f : α → Item) (hi : ∀ a, f a ≠ i) :
    (l.map f).count i = 0 := by
  refine List.count_eq_zero.mpr (fun hmem => ?_)
  rcases List.mem_map.mp hmem with ⟨a, _, heq⟩
  exact hi a heq

/-- Each number drawn uses up a ticket, and only with one does a submit start to wait. -/
theorem Ticketed.spend (hn : Ticketed (n, xs ++ h)) (he : Booking n xs n' ys)
    (hpending : ∀ id, id ∈ n'.pendingSubmits → id ∈ n.pendingSubmits ∨ Begun n' (.submit id))
    (hticket : n'.nextJobSeq + ys.count .ticket ≤ n.nextJobSeq + xs.count .ticket) :
    Ticketed (n', ys ++ h) where
  shelved := he.sequel.shelved hn.shelved
  room := by
    have hroom := hn.room
    rw [List.count_append] at hroom ⊢
    dsimp only at hroom ⊢
    omega
  waiting id hid :=
    (hpending id hid).elim (fun hold => (hn.waiting id hold).mono he) (fun hnew => hnew)

theorem Booking.ticketed (he : Booking n xs n' ys) (hn : Ticketed (n, xs ++ h)) :
    Ticketed (n', ys ++ h) := by
  have hspend := hn.spend he
  cases he with
  | carry carry => cases carry <;> exact hspend (fun _ hid => Or.inl hid) (by simp [Node.sent])
  | tell ds same told =>
    exact hspend (fun _ hid => Or.inl (same.pendingSubmits ▸ hid)) (by simp [same.nextJobSeq])
  | await cb slots some_ =>
    refine hspend (fun id hid => ?_) (by simp [count_map_eq_zero])
    rcases (AList.mem_insert _).mp hid with rfl | hid
    · exact Or.inr ⟨_, Nat.lt_succ_self _, rfl⟩
    · exact Or.inl hid
  | lone ps | decide reqId id slot ps ps' found =>
    exact hspend (fun _ hid => Or.inl (mem_insert_erase hid)) (by simp)
  | count reqId id slot ps needed found more =>
    refine hspend (fun id' hid => Or.inl ?_) (by simp)
    rcases (AList.mem_insert _).mp hid with rfl | hid
    · exact AList.lookup_isSome.mp (found ▸ rfl)
    · exact hid
  | ask | resend | ran | late | commit | stray | tally | settle | resynced =>
    exact hspend (fun _ hid => Or.inl hid) (by simp [duties, count_map_eq_zero])

/-- A callback of a resync comes to hand. -/
theorem Ticketed.ask (hn : Ticketed (n, h)) (k : Cont) : Ticketed (n, .fresh k :: h) :=
  ⟨hn.shelved, by simpa using hn.room, hn.waiting⟩

theorem Ticketed.counter (hn : Ticketed (n, h)) (counters : AList (fun _ : JobId => Int)) :
    Ticketed ({ n with resyncInflight := counters }, h) :=
  ⟨hn.shelved, hn.room, hn.waiting⟩

theorem Posting.ticketed (hp : Posting n xs n' ys) (hn : Ticketed (n, xs ++ h)) :
    Ticketed (n', ys ++ h) :=
  hp.keeps (fun _ _ _ _ he _ hx => he.ticketed hx) (fun _ _ _ hx => hx.ask _)
    (fun _ _ _ hx => hx.counter _) h hn

end Numbers

/-! ### Duties -/

/-- A callback weighed by its duties. -/
def owing (_ : Nat) (k : Cont) : Multiset Duty :=
  k.owes

/-- The duties of some items. -/
abbrev bag (next : Nat) (h : List Item) : Multiset Duty :=
  handWeight owing (fun d => {d}) next h

/-- The duties told, and those kept outside the call table. -/
def Node.ledger (n : Node) : Multiset Duty :=
  n.told + weigh (fun _ ps => ({ps.cb.duty} : Multiset Duty)) n.pendingSubmits +
    (n.qstates.map (fun s => (s.owes : Multiset Duty))).sum

theorem ledger_submits (n : Node) (seq : Nat) (submits : AList (fun _ : JobId => PendingSubmit)) :
    ({ n with nextJobSeq := seq, pendingSubmits := submits } : Node).ledger = n.told +
      weigh (fun _ ps => ({ps.cb.duty} : Multiset Duty)) submits +
      (n.qstates.map (fun s => (s.owes : Multiset Duty))).sum :=
  rfl

theorem ledger_commits (n : Node) (commits : List QState) :
    ({ n with qstates := commits } : Node).ledger = n.told +
      weigh (fun _ ps => ({ps.cb.duty} : Multiset Duty)) n.pendingSubmits +
      (commits.map (fun s => (s.owes : Multiset Duty))).sum :=
  rfl

/-- All duties: told, kept, or in hand. -/
def balance (x : Node × List Item) : Multiset Duty :=
  x.1.ledger + load owing (fun d => {d}) x

section Balanced

variable {n n' : Node} {xs ys h : List Item}

/-- With nothing in hand, what was told and what is owed. -/
theorem balance_nil (n : Node) : balance (n, []) = (n.told ++ n.owed : List Duty) := by
  have hcalls : weigh (fun r c => owing r c.cont) n.calls =
      (n.calls.entries.flatMap (fun e => e.2.cont.owes) : List Duty) := (coe_flatMap _ _).symm
  have hpending : weigh (fun _ ps => ({ps.cb.duty} : Multiset Duty)) n.pendingSubmits =
      (n.pendingSubmits.entries.map (fun e => e.2.cb.duty) : List Duty) := by
    rw [← sum_map_singleton, List.map_map]
    rfl
  have hhand : handWeight owing (fun d => {d}) n.nextReq [] = 0 := rfl
  rw [balance, Node.ledger, load, hcalls, hpending, ← coe_flatMap, hhand, Node.owed, add_zero,
    ← Multiset.coe_add, ← Multiset.coe_add, ← Multiset.coe_add]
  simp only [add_assoc]

theorem bag_duties (next : Nat) (ds : List Duty) : bag next (duties ds) = (ds : Multiset Duty) := by
  rw [bag, handWeight, duties, List.map_map]
  exact sum_map_singleton ds

theorem bag_append (next : Nat) (h h' : List Item) :
    bag next (h ++ h') = bag next h + bag next h' :=
  handWeight_append next h h'

theorem bag_nil (next : Nat) : bag next [] = 0 :=
  rfl

theorem bag_ticket (next : Nat) (h : List Item) : bag next (.ticket :: h) = bag next h :=
  zero_add _

theorem bag_duty (next : Nat) (d : Duty) : bag next [.duty d] = {d} :=
  add_zero _

theorem bag_callback (next r : Nat) (k : Cont) :
    bag next [.fresh k] = (k.owes : Multiset Duty) ∧
    bag next [.taken r k] = (k.owes : Multiset Duty) :=
  ⟨add_zero _, add_zero _⟩

/-- A reply that is counted has no duty of its own. -/
theorem bag_counted (next r : Nat) {k : Cont} (hk : k.owes = []) :
    bag next [.fresh k] = 0 ∧ bag next [.taken r k] = 0 := by
  rw [(bag_callback next r k).1, (bag_callback next r k).2, hk]
  exact ⟨rfl, rfl⟩

/-- The callbacks of a new submit or commit have no duties of their own. -/
theorem bag_fresh {α : Type} (next : Nat) (l : List α) (f : α → Cont) (hf : ∀ a, (f a).owes = []) :
    bag next (l.map (fun a => .fresh (f a))) = 0 := by
  refine List.sum_eq_zero (fun w hw => ?_)
  rw [List.map_map] at hw
  rcases List.mem_map.mp hw with ⟨a, _, rfl⟩
  exact congrArg Multiset.ofList (hf a)

/-- What leaves the hand enters the ledger, and the other way round. -/
theorem balance_frame (hc : n'.calls = n.calls) (hr : n'.nextReq = n.nextReq)
    (hledger : n'.ledger + bag n.nextReq ys = n.ledger + bag n.nextReq xs) :
    balance (n', ys ++ h) = balance (n, xs ++ h) := by
  have hframe : load owing (fun d => {d}) (n', ys ++ h) + bag n.nextReq xs =
      load owing (fun d => {d}) (n, xs ++ h) + bag n.nextReq ys := load_frame hc hr h
  refine add_right_cancel (b := bag n.nextReq ys + bag n.nextReq xs) ?_
  rw [balance, balance, add_add_add_comm, hledger, hframe, add_add_add_comm,
    add_comm (bag n.nextReq ys)]

theorem Carry.ledger (hc : Carry n xs n' ys) : n'.ledger = n.ledger := by
  cases hc with
  | sent dst body k =>
    have htold : (n.sent dst body k).told = n.told := by
      simp [Node.told, Node.sent, Packet.fulfils]
    rw [Node.ledger, htold, Node.ledger]
    rfl
  | waive | spoil | refused | finish => rfl

/-- An entry neither adds nor drops a duty. -/
theorem Booking.balanced (he : Booking n xs n' ys) (hn : Ticketed (n, xs ++ h)) :
    balance (n', ys ++ h) = balance (n, xs ++ h) := by
  have hnew : ∀ zs, xs = .ticket :: zs → n.nextId ∉ n.pendingSubmits := by
    rintro zs rfl hmem
    exact hn.fresh (hn.waiting _ hmem)
  cases he with
  | carry carry =>
    rw [balance, balance, carry.ledger]
    exact congrArg _ (carry.load hn.shelved (fun _ _ _ => rfl) h)
  | tell ds same told =>
    refine balance_frame same.calls same.nextReq ?_
    rw [Node.ledger, Multiset.coe_eq_coe.mpr told, ← Multiset.coe_add, same.pendingSubmits,
      same.qstates, bag_duties, bag_nil, Node.ledger]
    abel
  | ask k mark => exact balance_frame rfl rfl (by rw [(bag_callback _ 0 k).1, bag_duties])
  | ran reqId k mark => exact balance_frame rfl rfl (by rw [(bag_callback _ reqId k).2, bag_duties])
  | resend id slot => exact balance_frame rfl rfl (by rw [(bag_counted _ 0 (by rfl)).1, bag_nil])
  | late reqId id slot none_ | stray reqId id slot member r q none_ =>
    exact balance_frame rfl rfl (by rw [(bag_counted _ reqId (by rfl)).2, bag_nil])
  | await cb slots some_ =>
    refine balance_frame rfl rfl ?_
    rw [ledger_submits, weigh_insert (hnew _ rfl), bag_fresh _ slots _ (fun _ => rfl),
      bag_ticket, bag_duty, Node.ledger]
    abel
  | lone ps =>
    refine balance_frame rfl rfl ?_
    rw [ledger_submits, weigh_insert_erase, weigh_erase_of_notMem (hnew _ rfl), bag_ticket]
    rfl
  | count reqId id slot ps needed found more =>
    refine balance_frame rfl rfl ?_
    rw [ledger_submits, weigh_replace, Node.ledger, weigh_erase found,
      (bag_counted _ reqId (by rfl)).2]
    rfl
  | decide reqId id slot ps ps' found =>
    refine balance_frame rfl rfl ?_
    rw [ledger_submits, weigh_insert_erase, Node.ledger, weigh_erase found, bag_duty,
      (bag_counted _ reqId (by rfl)).2]
    abel
  | commit id r done peers some_ =>
    refine balance_frame rfl rfl ?_
    rw [ledger_commits, List.map_append, List.sum_append, bag_fresh _ peers _ (fun _ => rfl),
      bag_duties, Node.ledger, List.map_singleton, List.sum_singleton, add_zero, ← add_assoc]
    rfl
  | tally reqId id slot member r q s needed found more =>
    refine balance_frame rfl rfl ?_
    rw [(bag_counted _ reqId (by rfl)).2, ledger_commits, Node.ledger]
    refine congrArg (· + _) (congrArg (_ + ·) (add_left_cancel (a := (s.owes : Multiset Duty)) ?_))
    exact sum_map_set (fun s : QState => (s.owes : Multiset Duty)) found
  | settle reqId id slot member r q s s' found open_ fired =>
    refine balance_frame rfl rfl ?_
    have hset := sum_map_set (fun s : QState => (s.owes : Multiset Duty)) (b := s') found
    have hs : s.owes = s.done.owes := by rw [QState.owes, open_]; rfl
    have hs' : s'.owes = [] := by rw [QState.owes, fired]; rfl
    rw [hs, hs', Multiset.coe_nil, zero_add] at hset
    rw [(bag_counted _ reqId (by rfl)).2, bag_duties, ledger_commits, Node.ledger, ← hset]
    abel
  | resynced reqId id counters counted =>
    exact balance_frame rfl rfl (by rw [(bag_counted _ reqId (by rfl)).2]; rfl)

/-- A posting neither adds nor drops a duty. -/
theorem Posting.balanced (hp : Posting n xs n' ys) (hn : Ticketed (n, xs ++ h)) :
    balance (n', ys ++ h) = balance (n, xs ++ h) := by
  have hkeep := hp.keeps (P := fun x => Ticketed x ∧ balance x = balance (n, xs ++ h))
    (fun _ _ _ _ he _ hx => ⟨he.ticketed hx.1, (he.balanced hx.1).trans hx.2⟩)
    (fun m id below hx => ⟨hx.1.ask _, Eq.trans ?_ hx.2⟩)
    (fun _ _ _ hx => ⟨hx.1.counter _, hx.2⟩) h ⟨hn, rfl⟩
  · exact hkeep.2
  · have hsame : balance (m, [.fresh (.resync id)] ++ below) = balance (m, [] ++ below) :=
      balance_frame rfl rfl rfl
    exact hsame

end Balanced

/-! ### Replies to come -/

/-- How many replies a waiting submit or an undecided commit counts on. -/
def Node.expects (n : Node) : Mark → Option Int
  | .submit id => (n.pendingSubmits.lookup id).map (·.outstanding)
  | .commit q => n.qstates[q]?.bind (fun s => if s.fired then none else some s.outstanding)
  | .resync _ => none

/-- What is waited for counts on no more replies than are open in the window. -/
structure Vouched (W : Nat → Bool) (m : Mark) (x : Node × List Item) : Prop where
  steady : Steady W x.1.nextReq
  known : W x.1.nextReq = true ∨ Begun x.1 m
  bound : ∀ k, x.1.expects m = some k → 0 < k ∧ k ≤ openCount W m x

section Expects

variable {m : Mark} {n : Node}

theorem expects_congr {n' : Node} (hp : n'.pendingSubmits = n.pendingSubmits)
    (hq : n'.qstates = n.qstates) (m : Mark) : n'.expects m = n.expects m := by
  cases m with
  | submit id => rw [Node.expects, hp, Node.expects]
  | commit q => rw [Node.expects, hq, Node.expects]
  | resync id => rfl

theorem expects_submit (n : Node) (seq : Nat) (submits : AList (fun _ : JobId => PendingSubmit))
    (id : JobId) :
    ({ n with nextJobSeq := seq, pendingSubmits := submits } : Node).expects (.submit id) =
      (submits.lookup id).map (·.outstanding) :=
  rfl

theorem expects_commit (n : Node) (commits : List QState) (q : Nat) :
    ({ n with qstates := commits } : Node).expects (.commit q) =
      commits[q]?.bind (fun s => if s.fired then none else some s.outstanding) :=
  rfl

theorem expects_insert {id : JobId} (hm : m ≠ .submit id) (seq : Nat) (ps : PendingSubmit) :
    ({ n with nextJobSeq := seq, pendingSubmits := n.pendingSubmits.insert id ps } : Node).expects
    m =
      n.expects m := by
  cases m with
  | submit id' =>
    rw [expects_submit, AList.lookup_insert_ne (fun heq => hm (congrArg _ heq)), Node.expects]
  | commit _ | resync _ => rfl

theorem expects_erase (id : JobId) (seq : Nat) (ps : PendingSubmit) (m : Mark) :
    ({ n with
        nextJobSeq := seq, pendingSubmits := (n.pendingSubmits.insert id ps).erase id } :
        Node).expects m =
      if m = .submit id then none else n.expects m := by
  split
  · next heq =>
      rw [heq, expects_submit, AList.lookup_erase]
      rfl
  · next hm =>
      cases m with
      | submit id' =>
        have hne : id' ≠ id := fun heq => hm (congrArg _ heq)
        rw [expects_submit, AList.lookup_erase_ne hne, AList.lookup_insert_ne hne, Node.expects]
      | commit _ | resync _ => rfl

theorem expects_commits {q : Nat} {commits : List QState} (hm : m ≠ .commit q)
    (hother : ∀ q', q' ≠ q → commits[q']? = n.qstates[q']?) :
    ({ n with qstates := commits } : Node).expects m = n.expects m := by
  cases m with
  | commit q' => rw [expects_commit, hother q' (fun heq => hm (congrArg _ heq)), Node.expects]
  | submit _ | resync _ => rfl

end Expects

section Vouched

variable {W : Nat → Bool} {m : Mark} {n n' : Node} {xs ys h : List Item}

/-- Numbers and the window move on; the bound is shown anew. -/
theorem Vouched.of_bound (hb : Vouched W m (n, xs ++ h)) (he : Booking n xs n' ys)
    (hbound : ∀ k, n'.expects m = some k → 0 < k ∧ k ≤ openCount W m (n', ys ++ h)) :
    Vouched W m (n', ys ++ h) :=
  ⟨hb.steady.mono he.sequel.next,
    hb.known.imp (fun hopen => (hb.steady _ he.sequel.next).trans hopen) (fun hb => hb.mono he),
    hbound⟩

/-- It is waited as before or no longer, and no callback in the window is lost. -/
theorem Vouched.same (hb : Vouched W m (n, xs ++ h)) (he : Booking n xs n' ys)
    (hexpects : n'.expects m = n.expects m ∨ n'.expects m = none)
    (hcount : openCount W m (n, xs ++ h) ≤ openCount W m (n', ys ++ h)) :
    Vouched W m (n', ys ++ h) := by
  refine hb.of_bound he (fun k hk => ?_)
  rcases hexpects with heq | heq
  · rcases hb.bound k (heq ▸ hk) with ⟨hpos, hle⟩
    exact ⟨hpos, hle.trans (by exact_mod_cast hcount)⟩
  · cases heq.symm.trans hk

/-- The requests of what begins are sent with the window open. -/
theorem Vouched.begins (hb : Vouched W m (n, xs ++ h)) (he : Booking n xs n' ys)
    (hnew : ¬ Begun n m)
    (hc : n'.calls = n.calls) (hr : n'.nextReq = n.nextReq) (hx : ∀ i ∈ xs, i.mark ≠ some m)
    {α : Type} {l : List α} {f : α → Cont} (hy : ys = l.map (fun a => .fresh (f a)))
    (hf : ∀ a, (f a).mark = some m) (hl : l ≠ [])
    (hexpects : n'.expects m = some (l.length : Int)) : Vouched W m (n', ys ++ h) := by
  have hopen : W n.nextReq = true := hb.known.resolve_right hnew
  have hframe := openCount_frame (W := W) (m := m) hc hr xs ys h
  have hcount : handCount W m n.nextReq ys = l.length := by
    rw [hy, handCount, handWeight, List.map_map]
    simp [Function.comp_def, Item.weight, counts, hopen, hf]
  have hpos : 0 < l.length := List.length_pos_iff.mpr hl
  rw [handCount_other hx, hcount] at hframe
  refine hb.of_bound he (fun k hk => ?_)
  obtain rfl := Option.some.inj (hexpects.symm.trans hk)
  omega

theorem openCount_more (k : Cont) (h : List Item) :
    openCount W m (n, h) ≤ openCount W m (n, .fresh k :: h) := by
  have hframe := openCount_frame (W := W) (m := m) (n := n) rfl rfl [] [.fresh k] h
  exact (Nat.le_add_right _ _).trans_eq hframe.symm

/-- One reply is counted, and more are to come. -/
theorem Vouched.counted {reqId : Nat} {k : Cont} (hb : Vouched W m (n, [.taken reqId k] ++ h))
    (he : Booking n [.taken reqId k] n' []) (hc : n'.calls = n.calls) (hr : n'.nextReq = n.nextReq)
    {out : Int} (hbefore : n.expects m = some out) (hmore : out - 1 ≠ 0)
    (hafter : n'.expects m = some (out - 1)) :
    Vouched W m (n', [] ++ h) := by
  have hframe := openCount_frame (W := W) (m := m) hc hr [.taken reqId k] [] h
  have hone : handCount W m n.nextReq [.taken reqId k] ≤ 1 :=
    (handWeight_singleton _ _).trans_le (counts_le reqId k)
  have hnone : handCount W m n.nextReq [] = 0 := rfl
  rcases hb.bound out hbefore with ⟨hpos, hle⟩
  refine hb.of_bound he (fun k' hk' => ?_)
  obtain rfl := Option.some.inj (hafter.symm.trans hk')
  omega

theorem Booking.vouched (he : Booking n xs n' ys) (hn : Ticketed (n, xs ++ h))
    (hb : Vouched W m (n, xs ++ h)) : Vouched W m (n', ys ++ h) := by
  have hsame := hb.same he
  have hgone : n'.expects m = none → Vouched W m (n', ys ++ h) := fun hnone =>
    hb.of_bound he (fun k hk => by cases hnone.symm.trans hk)
  -- Nothing that the posting touches is counted for the mark.
  have hother : n'.calls = n.calls → n'.nextReq = n.nextReq → n'.expects m = n.expects m →
      (∀ i ∈ xs, i.mark ≠ some m) → (∀ i ∈ ys, i.mark ≠ some m) → Vouched W m (n', ys ++ h) :=
    fun hc hr hexpects hx hy => hsame (Or.inl hexpects) (openCount_other hc hr hx hy h).ge
  cases he with
  | carry carry =>
    refine hsame (Or.inl ?_) (carry.load hn.shelved hb.steady.level h).ge
    cases carry <;> exact expects_congr rfl rfl m
  | tell ds same told =>
    exact hother same.calls same.nextReq (expects_congr same.pendingSubmits same.qstates m)
      (by simp [duties, Item.mark]) (by simp)
  | ask k mark | ran reqId k mark =>
    exact hother rfl rfl rfl (by simp [duties, Item.mark, mark]) (by simp [duties, Item.mark, mark])
  | resend id slot => exact hsame (Or.inl rfl) (openCount_more (.replicate id slot) h)
  | await cb slots some_ =>
    by_cases hm : m = .submit n.nextId
    · subst hm
      exact hb.begins (.await cb slots some_) hn.fresh rfl rfl (by simp [Item.mark]) rfl
        (fun _ => rfl) some_ (by rw [expects_submit, AList.lookup_insert]; rfl)
    · exact hother rfl rfl (expects_insert hm _ _)
        (by simp [Item.mark]) (by simp [Item.mark, Cont.mark, Ne.symm hm])
  | lone ps =>
    refine hsame ?_ (openCount_other rfl rfl (by simp [Item.mark]) (by simp) h).ge
    rw [expects_erase]
    split <;> simp
  | late reqId id slot none_ =>
    by_cases hm : m = .submit id
    · exact hgone (by rw [hm, Node.expects, none_]; rfl)
    · exact hother rfl rfl rfl (by simp [Item.mark, Cont.mark, Ne.symm hm]) (by simp)
  | count reqId id slot ps needed found more =>
    by_cases hm : m = .submit id
    · subst hm
      exact hb.counted (.count reqId id slot ps needed found more) rfl rfl
        (by rw [Node.expects, found]; rfl) more (by rw [expects_submit, AList.lookup_insert]; rfl)
    · exact hother rfl rfl (expects_insert hm _ _)
        (by simp [Item.mark, Cont.mark, Ne.symm hm]) (by simp)
  | decide reqId id slot ps ps' found =>
    by_cases hm : m = .submit id
    · exact hgone (by rw [expects_erase, if_pos hm])
    · exact hother rfl rfl (by rw [expects_erase, if_neg hm])
        (by simp [Item.mark, Cont.mark, Ne.symm hm]) (by simp [Item.mark])
  | commit id r done peers some_ =>
    by_cases hm : m = .commit n.qstates.length
    · subst hm
      exact hb.begins (.commit id r done peers some_) (lt_irrefl _) rfl rfl
        (by simp [duties, Item.mark]) rfl (fun _ => rfl) some_
        (by rw [expects_commit, List.getElem?_concat_length]; rfl)
    · refine hother rfl rfl (expects_commits hm (fun q hq => ?_)) (by simp [duties, Item.mark])
        (List.forall_mem_map.mpr (fun _ _ => by simpa [Item.mark, Cont.mark] using Ne.symm hm))
      rcases Nat.lt_or_gt_of_ne hq with hlt | hgt
      · exact List.getElem?_append_left hlt
      · rw [List.getElem?_eq_none_iff.mpr (by simp; omega), List.getElem?_eq_none_iff.mpr hgt.le]
  | stray reqId id slot member r q none_ =>
    by_cases hm : m = .commit q
    · exact hgone (by rw [hm, Node.expects, none_]; rfl)
    · exact hother rfl rfl rfl (by simp [Item.mark, Cont.mark, Ne.symm hm]) (by simp)
  | tally reqId id slot member r q s needed found more =>
    by_cases hm : m = .commit q
    · subst hm
      have hlt : q < n.qstates.length := (List.getElem?_eq_some_iff.mp found).1
      by_cases hfired : s.fired = true
      · exact hgone (by rw [expects_commit, List.getElem?_set_self hlt]; simp [hfired])
      · exact hb.counted (.tally reqId id slot member r q s needed found more) rfl rfl
          (by rw [Node.expects, found, Option.bind_some, if_neg hfired]) (more.resolve_left hfired)
          (by rw [expects_commit, List.getElem?_set_self hlt]; simp [hfired])
    · exact hother rfl rfl (expects_commits hm (fun q' hq => List.getElem?_set_ne (Ne.symm hq)))
        (by simp [Item.mark, Cont.mark, Ne.symm hm]) (by simp)
  | settle reqId id slot member r q s s' found open_ fired =>
    by_cases hm : m = .commit q
    · refine hgone ?_
      have hlt : q < n.qstates.length := (List.getElem?_eq_some_iff.mp found).1
      rw [hm, Node.expects, List.getElem?_set_self hlt, Option.bind_some, fired]
      rfl
    · exact hother rfl rfl (expects_commits hm (fun q' hq => List.getElem?_set_ne (Ne.symm hq)))
        (by simp [Item.mark, Cont.mark, Ne.symm hm]) (by simp [duties, Item.mark])
  | resynced reqId id counters counted =>
    by_cases hm : m = .resync id
    · exact hgone (by rw [hm]; rfl)
    · exact hother rfl rfl (expects_congr rfl rfl m)
        (by simp [Item.mark, Cont.mark, Ne.symm hm]) (by simp)

/-- A posting keeps what is waited for vouched for. -/
theorem Posting.vouched (hp : Posting n xs n' ys) (hn : Ticketed (n, xs ++ h))
    (hb : Vouched W m (n, xs ++ h)) : Vouched W m (n', ys ++ h) := by
  have hkeep := hp.keeps (P := fun x => Ticketed x ∧ Vouched W m x)
    (fun _ _ _ _ he _ hx => ⟨he.ticketed hx.1, he.vouched hx.1 hx.2⟩)
    (fun m' id below hx => ⟨hx.1.ask _, hx.2.steady, hx.2.known, fun k hk => ?_⟩)
    (fun _ _ _ hx => ⟨hx.1.counter _, hx.2.steady, hx.2.known, hx.2.bound⟩) h ⟨hn, hb⟩
  · exact hkeep.2
  · rcases hx.2.bound k hk with ⟨hpos, hle⟩
    exact ⟨hpos, hle.trans (by exact_mod_cast openCount_more (.resync id) below)⟩

end Vouched

end Tautq
