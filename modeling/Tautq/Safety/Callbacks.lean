import Tautq.Lib.Assoc
import Tautq.Theory.React
import Tautq.Theory.RpcMoves

/-!
# Callbacks Run Exactly Once

A call ends in one of five ways: it is refused at once, a response arrives, its deadline
passes, its peer is declared dead, or its peer turns out to have restarted. Each of them runs
the callback, and a callback may make calls while the loop that ended its call still goes
on.

Two facts keep the account exact. A call is taken out of the table before its callback runs,
so every call that was made is either in the table or has been called back, never both
(`Books`). And request ids are never used twice by one process, so a call that a callback
makes is not one of those the loop has collected.

At a tick every call whose deadline has passed is collected and ended. Only a call that is
made in the tick itself, and with no time at all, can be left over.

## Main definitions

* `RpcNode.run`: A node after some events.
* `Books`: Every call is open or was called back.
* `Followed`: A call that was open is open under its id or was called back.

## Theorems

* `Deed.books`, `Move.books`: Every change keeps the account.
* `finishAll_calls_back`: A loop calls back all the calls it has collected.
* `called_back_once`: Every call is called back exactly once.
* `call_left_open`: But not by the tick that it is made in.
-/

namespace Tautq.Rpc

open RpcNode

/-- The numbers of the calls that were called back. -/
def RpcNode.calledBack (n : RpcNode) : List Nat :=
  n.fired.map Fired.token

/-- The numbers of the open calls. -/
def RpcNode.openTokens (n : RpcNode) : List Nat :=
  n.calls.entries.map (·.2.token)

/-- Every call that was made is open, under an id that has been used, or was called back. -/
structure Books (n : RpcNode) : Prop where
  once : (n.calledBack ++ n.openTokens).Perm (List.range n.issued.length)
  used : ∀ id ∈ n.calls, id < n.nextReq
  dated : ∀ id c, n.calls.lookup id = some c →
    ∃ i, n.issued[c.token]? = some i ∧ i.deadline = c.deadline

section Books

variable {t : Input} {n n' : RpcNode}

/-- What the account is about. -/
def RpcNode.ledger (n : RpcNode) :
    AList (fun _ : Nat => PendingCall) × Nat × List Issued × List Fired :=
  (n.calls, n.nextReq, n.issued, n.fired)

theorem Books.congr (h : Books n) (heq : n'.ledger = n.ledger) : Books n' := by
  simp only [RpcNode.ledger, Prod.mk.injEq] at heq
  rcases heq with ⟨hcalls, hnext, hissued, hfired⟩
  refine ⟨?_, ?_, ?_⟩
  · rw [calledBack, openTokens, hcalls, hissued, hfired]
    exact h.once
  · rw [hcalls, hnext]
    exact h.used
  · rw [hcalls, hissued]
    exact h.dated

theorem Books.notMem (h : Books n) : n.nextReq ∉ n.calls := fun hmem =>
  Nat.lt_irrefl _ (h.used _ hmem)

/-- A call is issued: the numbers go up by one. -/
theorem range_issue {l : List Nat} {k : Nat} (h : l.Perm (List.range k)) :
    (k :: l).Perm (List.range (k + 1)) := by
  rw [List.range_succ]
  exact (h.cons k).trans (List.perm_append_singleton k _).symm

/-- An issue of the past stays where it is. -/
theorem issued_append {l : List Issued} {k : Nat} {i i' : Issued} (h : l[k]? = some i) :
    (l ++ [i'])[k]? = some i := by
  rw [List.getElem?_append_left (List.getElem?_eq_some_iff.mp h).1]
  exact h

theorem NextId.le {reqId next : Nat} (h : NextId n reqId next) : n.nextReq ≤ next := by
  rcases h with ⟨_, rfl⟩ | ⟨_, rfl⟩
  · exact Nat.le_refl _
  · exact Nat.le_succ _

/-- A call is made and called back at once. -/
theorem Books.refuse (h : Books n) {dst : Endpoint} {reqId next : Nat}
    {timeout : Time} {st : Status} (id : NextId n reqId next) :
    Books ({ n.issue dst reqId timeout with nextReq := next }.fire n.issued.length st .layer) := by
  refine ⟨?_, fun id' hid => (h.used id' hid).trans_le id.le, fun id c hc => ?_⟩
  · simp only [calledBack, openTokens, fire, issue, List.map_append, List.map_cons, List.map_nil,
      List.length_append, List.length_cons, List.length_nil, List.append_assoc]
    refine List.Perm.trans ?_ (range_issue h.once)
    exact List.perm_middle
  · rcases h.dated id c hc with ⟨i, hi, hdeadline⟩
    exact ⟨i, issued_append hi, hdeadline⟩

/-- A call is made and entered. -/
theorem Books.enter (h : Books n) (dst : Endpoint) (timeout : Time) (cb : List Action) :
    Books (n.enter dst timeout cb) := by
  refine ⟨?_, fun id hid => ?_, fun id c hc => ?_⟩
  · simp only [calledBack, openTokens, RpcNode.enter, issue,
      AList.entries_insert_of_notMem h.notMem, List.map_cons, List.length_append, List.length_cons,
      List.length_nil]
    exact List.perm_middle.trans (range_issue h.once)
  · change id ∈ n.calls.insert _ _ at hid
    rw [AList.mem_insert] at hid
    change id < n.nextReq + 1
    rcases hid with rfl | hid
    · exact Nat.lt_succ_self _
    · exact Nat.lt_succ_of_lt (h.used id hid)
  · rcases lookup_insert_cases hc with ⟨_, rfl⟩ | ⟨_, hold⟩
    · refine ⟨{ dst, reqId := n.nextReq, boot := n.boot, deadline := n.now + timeout }, ?_, rfl⟩
      exact List.getElem?_concat_length
    · rcases h.dated id c hold with ⟨i, hi, hdeadline⟩
      exact ⟨i, issued_append hi, hdeadline⟩

/-- An open call ends. -/
theorem Books.finish (h : Books n) {id : Nat} {c : PendingCall} (found : n.calls.lookup id = some c)
    (st : Status) (cause : Cause) :
    Books ({ n with calls := n.calls.erase id }.fire c.token st cause) := by
  refine ⟨?_, fun id' hid => ?_, fun id' c' hc => ?_⟩
  · refine List.Perm.trans ?_ h.once
    simp only [calledBack, openTokens, fire, List.map_append, List.map_cons, List.map_nil,
      List.append_assoc]
    refine List.Perm.append_left _ ?_
    exact ((entries_perm_erase found).map (·.2.token)).symm
  · exact h.used id' (AList.mem_erase.mp hid).2
  · exact h.dated id' c' (lookup_erase_cases hc).2

/-- What a change does to the account: nothing, or it is one of the three above. -/
inductive LedgerStep (t : Input) (n n' : RpcNode) : Prop where
  | same (ledger : n'.ledger = n.ledger)
  | refuse (dst : Endpoint) (reqId next : Nat) (timeout : Time) (st : Status)
      (id : NextId n reqId next)
      (ledger : n'.ledger =
        ({ n.issue dst reqId timeout with nextReq := next }.fire n.issued.length st .layer).ledger)
  | enter (dst : Endpoint) (timeout : Time) (cb : List Action)
      (ledger : n'.ledger = (n.enter dst timeout cb).ledger)
  | finish (id : Nat) (c : PendingCall) (st : Status) (cause : Cause)
      (found : n.calls.lookup id = some c) (why : Ended t id st cause)
      (ledger : n'.ledger = ({ n with calls := n.calls.erase id }.fire c.token st cause).ledger)

theorem Move.ledgerStep (hmove : Move t n n') : LedgerStep t n n' := by
  cases hmove with
  | ack | flush | dropped | greeted | acked | created | opened | forgot | passed => exact .same rfl
  | deed n' hdeed =>
    cases hdeed with
    | still n' hstill => exact .same (hstill.field RpcNode.ledger)
    | refuse dst reqId next timeout st id => exact .refuse dst reqId next timeout st id rfl
    | callSent dst method body timeout cb => exact .enter dst timeout cb rfl
    | callQueued dst method body timeout cb => exact .enter dst timeout cb rfl
    | hello | answer | release => exact .same rfl
    | finish id c st cause found why => exact .finish id c st cause found why rfl

theorem Move.books (hmove : Move t n n') (h : Books n) : Books n' := by
  cases hmove.ledgerStep with
  | same ledger => exact h.congr ledger
  | refuse dst reqId next timeout st id ledger => exact (h.refuse id).congr ledger
  | enter dst timeout cb ledger => exact (h.enter dst timeout cb).congr ledger
  | finish id c st cause found why ledger => exact (h.finish found st cause).congr ledger

theorem books_of_moves (hpath : Path (Move t) n n') (h : Books n) : Books n' :=
  hpath.keeps (fun _ _ hmove hm => hmove.books hm) h

/-- A call is not both open and called back, and is called back once. -/
theorem Books.nodup (h : Books n) : (n.calledBack ++ n.openTokens).Nodup :=
  h.once.nodup_iff.mpr List.nodup_range

end Books

/-! ### Loops over the table -/

/-- A call that was open is open under its id or was called back. -/
structure Followed (id : Nat) (c : PendingCall) (n : RpcNode) : Prop where
  used : id < n.nextReq
  open_ : c.token ∈ n.calledBack ∨ n.calls.lookup id = some c

section Loops

variable {t : Input} {n n' : RpcNode} {id : Nat} {c : PendingCall}

theorem Followed.congr (heq : n'.ledger = n.ledger) (h : Followed id c n) : Followed id c n' := by
  simp only [RpcNode.ledger, Prod.mk.injEq] at heq
  rcases heq with ⟨hcalls, hnext, _, hfired⟩
  refine ⟨?_, ?_⟩
  · rw [hnext]
    exact h.used
  · rw [calledBack, hfired, hcalls]
    exact h.open_

theorem calledBack_fire (token : Nat) (st : Status) (cause : Cause) :
    (n.fire token st cause).calledBack = n.calledBack ++ [token] := by
  rw [calledBack, fire, List.map_append]
  rfl

theorem Move.followed (hmove : Move t n n') (h : Followed id c n) : Followed id c n' := by
  have hne : id ≠ n.nextReq := Nat.ne_of_lt h.used
  cases hmove.ledgerStep with
  | same ledger => exact Followed.congr ledger h
  | refuse dst reqId next timeout st nextId ledger =>
    refine Followed.congr ledger ⟨h.used.trans_le nextId.le, ?_⟩
    rw [calledBack_fire]
    exact h.open_.imp_left (List.mem_append_left _)
  | enter dst timeout cb ledger =>
    refine Followed.congr ledger ⟨Nat.lt_succ_of_lt h.used, h.open_.imp_right fun hopen => ?_⟩
    change (n.calls.insert n.nextReq _).lookup id = some c
    rw [AList.lookup_insert_ne hne]
    exact hopen
  | finish id' c' st cause found why ledger =>
    refine Followed.congr ledger ⟨h.used, ?_⟩
    rw [calledBack_fire]
    rcases h.open_ with hback | hopen
    · exact Or.inl (List.mem_append_left _ hback)
    · by_cases hid : id = id'
      · -- It is this call that ends.
        subst hid
        rw [hopen] at found
        rw [Option.some.inj found]
        exact Or.inl (List.mem_append_right _ (List.mem_singleton_self _))
      · right
        change (n.calls.erase id').lookup id = some c
        rw [AList.lookup_erase_ne hid]
        exact hopen

theorem followed_of_moves (hpath : Path (Move t) n n') (h : Followed id c n) : Followed id c n' :=
  hpath.keeps (fun _ _ hmove hm => hmove.followed hm) h

/-- A call that was ended stays so: its id is not used again. -/
theorem Move.closed (hmove : Move t n n') (h : id < n.nextReq ∧ n.calls.lookup id = none) :
    id < n'.nextReq ∧ n'.calls.lookup id = none := by
  have hne : id ≠ n.nextReq := Nat.ne_of_lt h.1
  cases hmove.ledgerStep with
  | same ledger =>
    simp only [RpcNode.ledger, Prod.mk.injEq] at ledger
    rw [ledger.1, ledger.2.1]
    exact h
  | refuse dst reqId next timeout st nextId ledger =>
    simp only [RpcNode.ledger, Prod.mk.injEq] at ledger
    rw [ledger.1, ledger.2.1]
    exact ⟨h.1.trans_le nextId.le, h.2⟩
  | enter dst timeout cb ledger =>
    simp only [RpcNode.ledger, Prod.mk.injEq] at ledger
    rw [ledger.1, ledger.2.1]
    refine ⟨Nat.lt_succ_of_lt h.1, ?_⟩
    change (n.calls.insert n.nextReq _).lookup id = none
    rw [AList.lookup_insert_ne hne]
    exact h.2
  | finish id' c' st cause found why ledger =>
    simp only [RpcNode.ledger, Prod.mk.injEq] at ledger
    rw [ledger.1, ledger.2.1]
    refine ⟨h.1, ?_⟩
    change (n.calls.erase id').lookup id = none
    by_cases hid : id = id'
    · rw [hid, AList.lookup_erase]
    · rw [AList.lookup_erase_ne hid]
      exact h.2

theorem closed_of_moves (hpath : Path (Move t) n n')
    (h : id < n.nextReq ∧ n.calls.lookup id = none) : id < n'.nextReq ∧ n'.calls.lookup id = none :=
  hpath.keeps (P := fun m => id < m.nextReq ∧ m.calls.lookup id = none)
    (fun _ _ hmove hm => hmove.closed hm) h

/-- Ending a call takes it out of the table, whatever its callback does. -/
theorem finishCall_closes (h : id < n.nextReq) (st : Status) :
    (n.finishCall st .layer id).calls.lookup id = none := by
  unfold finishCall
  rcases hfound : n.calls.lookup id with _ | c
  · exact hfound
  · have hpath : Path (Move .tick) ({ n with calls := n.calls.erase id }.fire c.token st .layer)
        (({ n with calls := n.calls.erase id }.fire c.token st .layer).acts c.cb) :=
      Path.of_deeds (acts_path _ _)
    exact (closed_of_moves hpath ⟨h, AList.lookup_erase id n.calls⟩).2

theorem Move.nextReq_le (hmove : Move t n n') : n.nextReq ≤ n'.nextReq := by
  cases hmove.ledgerStep with
  | same ledger | finish _ _ _ _ _ _ ledger =>
    simp only [RpcNode.ledger, Prod.mk.injEq] at ledger
    exact Nat.le_of_eq ledger.2.1.symm
  | refuse dst reqId next timeout st nextId ledger =>
    simp only [RpcNode.ledger, Prod.mk.injEq] at ledger
    rw [ledger.2.1]
    exact nextId.le
  | enter dst timeout cb ledger =>
    simp only [RpcNode.ledger, Prod.mk.injEq] at ledger
    rw [ledger.2.1]
    exact Nat.le_succ _

/-- A loop ends all the calls it has collected. -/
theorem foldl_finishCall_closes (ids : List Nat) (st : Status) (n : RpcNode)
    (h : ∀ id ∈ ids, id < n.nextReq) :
    ∀ id ∈ ids, (ids.foldl (finishCall · st .layer ·) n).calls.lookup id = none := by
  induction ids generalizing n with
  | nil =>
    intro id hid
    cases hid
  | cons x ids ih =>
    have hfirst : Path (Move .tick) n (n.finishCall st .layer x) :=
      Path.of_deeds (finishCall_path (Or.inl rfl))
    have hgrows : n.nextReq ≤ (n.finishCall st .layer x).nextReq :=
      hfirst.keeps (P := fun m => n.nextReq ≤ m.nextReq)
        (fun _ _ hmove hm => hm.trans hmove.nextReq_le) (Nat.le_refl _)
    have hused : ∀ id ∈ x :: ids, id < (n.finishCall st .layer x).nextReq := fun id hid =>
      (h id hid).trans_le hgrows
    intro id hid
    rw [List.foldl_cons]
    rcases List.mem_cons.mp hid with rfl | hin
    · -- It is closed at once, and stays so while the others are ended.
      have hrest : Path (Move .tick) (n.finishCall st .layer id)
          (ids.foldl (finishCall · st .layer ·) (n.finishCall st .layer id)) :=
        (Path.foldl (P := fun _ => True) _ ids
          (fun _ _ _ _ => ⟨Path.of_deeds (finishCall_path (Or.inl rfl)), trivial⟩) _ trivial).1
      exact (closed_of_moves hrest ⟨hused id hid, finishCall_closes (h id hid) st⟩).2
    · exact ih _ (fun id' hid' => hused id' (List.mem_cons_of_mem x hid')) id hin

/-- A call with a property is called back by the loop over the calls with that property. -/
theorem finishAll_calls_back (h : Books n) {p : PendingCall → Bool}
    (hopen : n.calls.lookup id = some c)
    (hp : p c = true) (st : Status) : c.token ∈ (n.finishAll p st).calledBack := by
  have hmem : id ∈ n.calls := AList.lookup_isSome.mp (hopen ▸ rfl)
  have hcollected : id ∈ n.openCalls p := by
    refine List.mem_filter.mpr ⟨mem_arrange.mpr (AList.mem_keys.mpr hmem), ?_⟩
    rw [hopen]
    exact hp
  have hpath : Path (Move .tick) n (n.finishAll p st) := Path.of_deeds (finishAll_path p st)
  have hused : ∀ id' ∈ n.openCalls p, id' < n.nextReq := fun id' hid' =>
    h.used id' (AList.mem_keys.mp (mem_arrange.mp (List.mem_filter.mp hid').1))
  have hclosed := foldl_finishCall_closes (n.openCalls p) st
    { n with env := { n.env with orders := n.env.orders.tail } } hused id hcollected
  refine (followed_of_moves hpath ⟨h.used id hmem, Or.inr hopen⟩).open_.resolve_right
    fun hstill => ?_
  rw [finishAll, hclosed] at hstill
  cases hstill

end Loops

/-! ### Runs -/

/-- What a step makes is dated from its time on. -/
theorem Move.issued_later {t : Input} {n n' : RpcNode} (hmove : Move t n n') :
    ∃ l, n'.issued = n.issued ++ l ∧ ∀ i ∈ l, n.now ≤ i.deadline := by
  cases hmove.ledgerStep with
  | same ledger | finish _ _ _ _ _ _ ledger =>
    simp only [RpcNode.ledger, Prod.mk.injEq] at ledger
    exact ⟨[], ledger.2.2.1.trans (List.append_nil _).symm, by simp⟩
  | refuse dst reqId next timeout st nextId ledger =>
    simp only [RpcNode.ledger, Prod.mk.injEq] at ledger
    refine ⟨_, ledger.2.2.1, fun i hi => ?_⟩
    rw [List.mem_singleton.mp hi]
    exact Nat.le_add_right _ _
  | enter dst timeout cb ledger =>
    simp only [RpcNode.ledger, Prod.mk.injEq] at ledger
    refine ⟨_, ledger.2.2.1, fun i hi => ?_⟩
    rw [List.mem_singleton.mp hi]
    exact Nat.le_add_right _ _

/-- Time stands still in a tick. -/
theorem Move.now_eq {n n' : RpcNode} (hmove : Move .tick n n') : n'.now = n.now := by
  cases hmove with
  | deed n' hdeed =>
    cases hdeed with
    | still n' hstill => exact hstill.field RpcNode.now
    | refuse | callSent | callQueued | hello | answer | release | finish => rfl
  | ack | flush | dropped | greeted | acked | created | opened | forgot => rfl
  | passed d trigger => cases trigger

/-- What a tick makes is dated from its time on. -/
theorem issued_of_moves {n n' : RpcNode} (hpath : Path (Move .tick) n n') :
    n'.now = n.now ∧ ∃ l, n'.issued = n.issued ++ l ∧ ∀ i ∈ l, n.now ≤ i.deadline := by
  refine hpath.keeps (P := fun m => m.now = n.now ∧ ∃ l, m.issued = n.issued ++ l ∧
    ∀ i ∈ l, n.now ≤ i.deadline) (fun m m' hmove hm => ?_) ⟨rfl, [], by simp, by simp⟩
  rcases hm with ⟨hnow, l, hl, hlate⟩
  rcases hmove.issued_later with ⟨l', hl', hlate'⟩
  refine ⟨hmove.now_eq.trans hnow, l ++ l', by rw [hl', hl, List.append_assoc], fun i hi => ?_⟩
  rcases List.mem_append.mp hi with hi | hi
  · exact hlate i hi
  · rw [← hnow]
    exact hlate' i hi

/-- What was called back stays called back. -/
theorem calledBack_of_moves {t : Input} {n n' : RpcNode} (hpath : Path (Move t) n n') {k : Nat}
    (h : k ∈ n.calledBack) : k ∈ n'.calledBack := by
  refine hpath.keeps (P := fun m => k ∈ m.calledBack) (fun m m' hmove hm => ?_) h
  cases hmove.ledgerStep with
  | same ledger | enter _ _ _ ledger =>
    simp only [RpcNode.ledger, Prod.mk.injEq] at ledger
    rw [calledBack, ledger.2.2.2]
    exact hm
  | refuse _ _ _ _ _ _ ledger | finish _ _ _ _ _ _ ledger =>
    simp only [RpcNode.ledger, Prod.mk.injEq] at ledger
    rw [calledBack, ledger.2.2.2, fire, List.map_append]
    exact List.mem_append_left _ hm

/-- A tick calls back every call whose deadline has passed. -/
theorem tick_calls_back {n : RpcNode} (h : Books n) {k : Nat} {i : Issued}
    (hk : n.issued[k]? = some i) (hdue : i.deadline ≤ n.now) : k ∈ n.tick.calledBack := by
  have hpeers : Path (Move .tick) n (n.peers.keys.foldl tickPeer n) := tickPeers_path _
  have hbooks := books_of_moves hpeers h
  rcases issued_of_moves hpeers with ⟨_, l, hl, _⟩
  rw [tick]
  generalize n.peers.keys.foldl tickPeer n = m at hbooks hl
  have hkm : m.issued[k]? = some i := by
    rw [hl, List.getElem?_append_left (List.getElem?_eq_some_iff.mp hk).1]
    exact hk
  have hmade : k ∈ m.calledBack ++ m.openTokens :=
    hbooks.once.mem_iff.mpr (List.mem_range.mpr (List.getElem?_eq_some_iff.mp hkm).1)
  rcases List.mem_append.mp hmade with hback | hopen
  · exact calledBack_of_moves (t := .tick) (Path.of_deeds (finishAll_path _ _)) hback
  · rcases List.mem_map.mp hopen with ⟨⟨id, c⟩, hmem, rfl⟩
    have hfound : m.calls.lookup id = some c := AList.mem_lookup_iff.mpr hmem
    rcases hbooks.dated id c hfound with ⟨i', hi', hdeadline⟩
    rw [hkm] at hi'
    refine finishAll_calls_back hbooks hfound ?_ _
    rw [← hdeadline, ← Option.some.inj hi']
    exact decide_eq_true hdue

/-- A node after some events. -/
def RpcNode.run (n : RpcNode) (events : List (Env × Input)) : RpcNode :=
  events.foldl (fun n e => n.step e.1 e.2) n

/-- A node when its process starts. -/
def RpcNode.start (self : Endpoint) (boot : Nat) (handlers : List UInt8) : RpcNode where
  self := self
  boot := boot
  handlers := handlers

theorem books_step {n : RpcNode} (h : Books n) (env : Env) (i : Input) : Books (n.step env i) :=
  books_of_moves (react_path i) (h.congr rfl)

theorem books_run {n : RpcNode} (h : Books n) (events : List (Env × Input)) :
    Books (n.run events) := by
  induction events generalizing n with
  | nil => exact h
  | cons e events ih => exact ih (books_step h e.1 e.2)

/-- Whatever happens to a node: every call is called back at most once. At a tick, every call
    that was made before and whose deadline has passed has been called back, exactly once; and
    what is still open though its deadline has passed was made in this tick, with no time at
    all. -/
theorem called_back_once (self : Endpoint) (boot : Nat) (handlers : List UInt8)
    (events : List (Env × Input)) :
    let n := (start self boot handlers).run events
    n.calledBack.Nodup ∧
      ∀ env : Env,
        let n' := n.step env .tick
        (∀ k i, n.issued[k]? = some i → i.deadline ≤ n.now → n'.calledBack.count k = 1) ∧
          ∀ k i, n'.issued[k]? = some i → i.deadline ≤ n'.now → k ∉ n'.calledBack →
            n.issued.length ≤ k ∧ i.deadline = n'.now := by
  have hstart : Books (start self boot handlers) := by
    refine ⟨List.Perm.refl _, ?_, ?_⟩
    · intro id hid
      exact absurd hid (AList.notMem_empty id)
    · intro id c hc
      cases hc
  have hbooks := books_run hstart events
  intro n
  change Books n at hbooks
  have hnodup : ∀ {m : RpcNode}, Books m → m.calledBack.Nodup := fun h => h.nodup.of_append_left
  refine ⟨hnodup hbooks, fun env => ⟨fun k i hk hdue => ?_, fun k i hk hdue hopen => ?_⟩⟩
  · exact List.count_eq_one_of_mem (hnodup (books_step hbooks env .tick))
      (tick_calls_back (n := { n with env }) (hbooks.congr rfl) hk hdue)
  · have hpath : Path (Move .tick) ({ n with env } : RpcNode) (n.step env .tick) := react_path .tick
    rcases issued_of_moves hpath with ⟨hnow, l, hl, hlate⟩
    rw [hnow] at hdue ⊢
    by_cases hold : k < n.issued.length
    · refine absurd (tick_calls_back (n := { n with env }) (hbooks.congr rfl) (i := i) ?_ hdue)
        hopen
      rw [hl, List.getElem?_append_left hold] at hk
      exact hk
    · refine ⟨Nat.le_of_not_lt hold, ?_⟩
      rw [hl, List.getElem?_append_right (Nat.le_of_not_lt hold)] at hk
      exact Nat.le_antisymm hdue (hlate i (List.mem_of_getElem? hk))

/-- A tick ends a call that has no time, and its callback makes another one that has none. -/
def immediateRun : RpcNode :=
  let call (cb : List Action) : Action := .call ⟨2, 1⟩ 1 [] 0 cb
  ((start ⟨1, 1⟩ 11 []).run [({}, .act [call [call []]])]).step {} .tick

/-- The second call is open at the end of the tick, and its deadline was the time of the tick. -/
theorem call_left_open : ∃ i, immediateRun.issued[1]? = some i ∧ i.deadline ≤ immediateRun.now ∧
    1 ∉ immediateRun.calledBack :=
  ⟨{ dst := ⟨2, 1⟩, reqId := 2, boot := 11, deadline := 0 }, by decide +kernel⟩

end Tautq.Rpc
