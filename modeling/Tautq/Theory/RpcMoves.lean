import Tautq.Core.RpcNode
import Tautq.Lib.Path

/-!
# What the Call Layer Does to Its State

Every handler of the call layer is a sequence of elementary changes of its state. Those that
actions and callbacks can make are the `Deed`s: calls that are refused, sent or queued,
greetings, responses, contexts that are let go, and calls that end. They leave the sessions and
what is known of the peers alone. `Move` adds what the handlers of the handshake, of requests and
of death verdicts do themselves.

A callback runs in the middle of a loop over the call table. It is itself a sequence of
deeds, so the loop is one, and it does not matter where in the loop the callback runs.

## Main definitions

* `Still`: Nothing changes but pacing and the environment's choices.
* `Deed`: A change that an action or the end of a call makes.
* `Move`: A change that some handler makes.

## Theorems

* `acts_path`, `finishAll_path`: Actions and loops that end calls are deeds.
* `Deed.standing_eq`: Deeds leave sessions alone.
* `react_path`: A handler is a sequence of moves.
-/

namespace Tautq.Rpc

open Status RpcNode

/-! ### Reading a peer after a change -/

section Peers

variable {n : RpcNode} {a b : Endpoint} {p : Peer}

@[simp] theorem peer_setPeer : (n.setPeer a p).peer a = p := by
  rw [peer, setPeer, AList.lookup_insert]
  rfl

theorem peer_setPeer_ne (h : b ≠ a) : (n.setPeer a p).peer b = n.peer b := by
  rw [peer, setPeer, AList.lookup_insert_ne h]
  rfl

theorem peer_setPeer_cases (b : Endpoint) :
    (b = a ∧ (n.setPeer a p).peer b = p) ∨ (b ≠ a ∧ (n.setPeer a p).peer b = n.peer b) := by
  by_cases h : b = a
  · subst h
    exact Or.inl ⟨rfl, peer_setPeer⟩
  · exact Or.inr ⟨h, peer_setPeer_ne h⟩

/-- Forgetting a peer makes it a new one. -/
theorem peer_erase (b : Endpoint) : ({ n with peers := n.peers.erase a } : RpcNode).peer b =
    if b = a then {} else n.peer b := by
  by_cases h : b = a
  · subst h
    rw [peer, AList.lookup_erase, if_pos rfl]
    rfl
  · rw [peer, AList.lookup_erase_ne h, if_neg h]
    rfl

end Peers

/-! ### Elementary changes -/

/-- What is left of a state when pacing and the environment's choices are put aside. -/
def RpcNode.core (n : RpcNode) : RpcNode :=
  { n with peers := ∅, strangerNext := ∅, env := { stamp := n.env.stamp } }

/-- What is left of a peer when the pacing of its greetings is put aside. -/
def Peer.core (p : Peer) : Peer :=
  { p with nextHello := 0 }

/-- Nothing changes but pacing and the environment's choices. -/
structure Still (n n' : RpcNode) : Prop where
  core : n'.core = n.core
  peer : ∀ a, (n'.peer a).core = (n.peer a).core

/-- A call gets the next request id, or none. -/
def NextId (n : RpcNode) (reqId next : Nat) : Prop :=
  (reqId = 0 ∧ next = n.nextReq) ∨ (reqId = n.nextReq ∧ next = n.nextReq + 1)

/-- A call ends for a reason: the layer's own, or a response with its id. -/
def Ended (t : Input) (id : Nat) (st : Status) (cause : Cause) : Prop :=
  cause = .layer ∨ ∃ src ctx body as, t = .frame src (.response ctx st body) as ∧
    cause = .wire src ctx body ∧ id = ctx.reqId

/-- A change that an action or the end of a call makes. -/
inductive Deed (t : Input) (n : RpcNode) : RpcNode → Prop where
  | still (n' : RpcNode) (h : Still n n') : Deed t n n'
  | refuse (dst : Endpoint) (reqId next : Nat) (timeout : Time) (st : Status)
      (id : NextId n reqId next) :
      Deed t n ({ n.issue dst reqId timeout with nextReq := next }.fire n.issued.length st .layer)
  | callSent (dst : Endpoint) (method : UInt8) (body : Bytes) (timeout : Time) (cb : List Action)
      (standing : (n.peer dst).established = true) :
      Deed t n ({ n with
        frames := n.frames ++ [(dst, Frame.request method n.nextReq body n.boot)] }.enter
        dst timeout cb)
  | callQueued (dst : Endpoint) (method : UInt8) (body : Bytes) (timeout : Time)
      (cb : List Action) : Deed t n ((n.setPeer dst { n.peer dst with
        pending := (n.peer dst).pending ++ [Frame.request method n.nextReq body n.boot] }).enter
          dst timeout cb)
  | hello (a : Endpoint) : Deed t n (n.sendHello a)
  | answer (ctx : ReqCtx) (st : Status) (body : Bytes) (mem : ctx ∈ n.ctxs)
      (standing : (n.peer ctx.src).established = true) :
      Deed t n { n with
        frames := n.frames ++ [(ctx.src, .response ctx st body)]
        responded := n.responded ++ [(ctx, st, body)] }
  | release (ctx : ReqCtx) : Deed t n (n.release ctx)
  | finish (id : Nat) (c : PendingCall) (st : Status) (cause : Cause)
      (found : n.calls.lookup id = some c) (why : Ended t id st cause) :
      Deed t n ({ n with calls := n.calls.erase id }.fire c.token st cause)

/-- Why a session is dropped: the peer has another boot, or it was declared dead. -/
def Drops (t : Input) (n : RpcNode) (a : Endpoint) : Prop :=
  (∃ h, t = .hello a h ∧ n.restarted a h = true ∧ (h.isAck = true → h.echoBoot = n.boot)) ∨
    t = .peerDead a

/-- A change that some handler makes. -/
inductive Move (t : Input) (n : RpcNode) : RpcNode → Prop where
  | deed (n' : RpcNode) (h : Deed t n n') : Move t n n'
  | ack (src : Endpoint) (h : Hello) (trigger : t = .hello src h) (greeting : h.isAck = false)
      (known : (n.peer src).remoteBoot = h.senderBoot) :
      Move t n { n with
        hellos := n.hellos ++
          [(src, { isAck := true, senderBoot := n.boot, echoBoot := h.senderBoot })] }
  | flush (a : Endpoint) (f : Frame) (fs : List Frame) (standing : (n.peer a).session.isSome)
      (pending : (n.peer a).pending = f :: fs) :
      Move t n ({ n with frames := n.frames ++ [(a, f)] }.setPeer a { n.peer a with pending := fs })
  | dropped (a : Endpoint) (why : Drops t n a) : Move t n (n.dropSession a)
  | greeted (src : Endpoint) (h : Hello) (trigger : t = .hello src h) (greeting : h.isAck = false)
      (gone : n.restarted src h = true → (n.peer src).session = none) :
      Move t n (n.setPeer src { n.peer src with
        remoteBoot := h.senderBoot
        acked := (n.peer src).acked && !n.restarted src h })
  | acked (src : Endpoint) (h : Hello) (trigger : t = .hello src h) (isAck : h.isAck = true)
      (echo : h.echoBoot = n.boot)
      (gone : n.restarted src h = true → (n.peer src).session = none) :
      Move t n (n.setPeer src { n.peer src with remoteBoot := h.senderBoot, acked := true })
  | created (src : Endpoint) (h : Hello) (trigger : t = .hello src h)
      (none_ : (n.peer src).session = none) (acked : (n.peer src).acked = true)
      (known : (n.peer src).remoteBoot = h.senderBoot) :
      Move t n (n.setPeer src { n.peer src with session := some n.env.stamp })
  | opened (src : Endpoint) (method : UInt8) (reqId : Nat) (body : Bytes) (boot : Nat)
      (as : List Action) (trigger : t = .frame src (.request method reqId body boot) as) :
      Move t n { n with ctxs := n.ctxs ++ [{ src, reqId, method, boot }] }
  | forgot (a : Endpoint) (trigger : t = .peerDead a) (gone : (n.peer a).session = none) :
      Move t n { n with peers := n.peers.erase a }
  | passed (d : Time) (trigger : t = .advance d) : Move t n { n with now := n.now + d }

section Paths

variable {t : Input} {n : RpcNode}

theorem Still.field {β : Type} {n' : RpcNode} (h : Still n n') (f : RpcNode → β) :
    f n'.core = f n.core :=
  congrArg f h.core

/-- Rewriting a peer with what it was is no change. -/
theorem still_setPeer {a : Endpoint} {p : Peer} (h : p.core = (n.peer a).core) :
    Still n (n.setPeer a p) := by
  refine ⟨rfl, fun b => ?_⟩
  rcases peer_setPeer_cases (n := n) (a := a) (p := p) b with ⟨rfl, hb⟩ | ⟨_, hb⟩
  · rw [hb, h]
  · rw [hb]

theorem deed_still {n' : RpcNode} (h : Still n n') : Path (Deed t) n n' :=
  .single (.still _ h)

/-! ### Actions -/

/-- One of the environment's choices is used up. -/
def RpcNode.spent (n : RpcNode) : RpcNode :=
  { n with env := { n.env with sends := n.env.sends.tail } }

theorem spent_path : Path (Deed t) n n.spent :=
  deed_still ⟨rfl, fun _ => rfl⟩

theorem send_of_accepts (h : n.accepts = true) (a : Endpoint) (f : Frame) :
    n.send a f = { n.spent with frames := n.frames ++ [(a, f)] } := by
  rw [send, if_pos h]
  rfl

theorem send_of_refuses (h : ¬ n.accepts = true) (a : Endpoint) (f : Frame) :
    n.send a f = n.spent := by
  rw [send, if_neg h]
  rfl

theorem respond_path (ctx : ReqCtx) (st : Status) (body : Bytes) :
    Path (Deed t) n (n.respond ctx st body) := by
  unfold respond
  by_cases h : ctx ∈ n.ctxs ∧ (n.peer ctx.src).established
  · rw [if_pos h]
    by_cases hsend : n.accepts = true
    · rw [send_of_accepts hsend, if_pos hsend]
      exact spent_path.tail (.answer (n := n.spent) ctx st body h.1 h.2)
    · rw [send_of_refuses hsend, if_neg hsend]
      exact spent_path
  · rw [if_neg h]

/-- A call that is queued: the frame waits, the call is entered, the peer perhaps greeted. -/
theorem queueFrame_path (dst : Endpoint) (method : UInt8) (body : Bytes) (timeout : Time)
    (cb : List Action) :
    Path (Deed t) n
    ((n.queueFrame dst (.request method n.nextReq body n.boot)).enter dst timeout cb) := by
  unfold queueFrame
  simp only
  split
  · exact (Relation.ReflTransGen.single (.callQueued dst method body timeout cb)).tail (.hello dst)
  · exact .single (.callQueued dst method body timeout cb)

mutual

/-- An action is a sequence of deeds, those of the callbacks it runs included. -/
theorem act_path (n : RpcNode) (a : Action) : Path (Deed t) n (n.act a) := by
  cases a with
  | respond ctx st body =>
    rw [act]
    exact respond_path ctx st body
  | release ctx =>
    rw [act]
    exact .single (.release ctx)
  | call dst method body timeout cb =>
    rw [act]
    by_cases hlarge : kMaxRpcBody < body.length
    · rw [if_pos hlarge]
      have hrefuse : Deed t n _ := .refuse dst 0 n.nextReq timeout kTooLarge (Or.inl ⟨rfl, rfl⟩)
      exact (Relation.ReflTransGen.single hrefuse).trans (acts_path _ cb)
    · rw [if_neg hlarge]
      by_cases hstanding : (n.peer dst).established = true
      · simp only [if_pos hstanding]
        by_cases hsend : n.accepts = true
        · rw [if_pos hsend, send_of_accepts hsend]
          exact spent_path.tail (.callSent (n := n.spent) dst method body timeout cb hstanding)
        · rw [if_neg hsend, send_of_refuses hsend]
          have hrefuse : Deed t n.spent _ :=
            .refuse dst n.nextReq (n.nextReq + 1) timeout kBusy (Or.inr ⟨rfl, rfl⟩)
          exact (spent_path.tail hrefuse).trans (acts_path _ cb)
      · simp only [if_neg hstanding]
        exact queueFrame_path dst method body timeout cb

theorem acts_path (n : RpcNode) (as : List Action) : Path (Deed t) n (n.acts as) := by
  cases as with
  | nil => exact .refl
  | cons a as =>
    rw [acts]
    exact (act_path n a).trans (acts_path _ as)

end

/-! ### The end of calls -/

theorem finishCall_path {st : Status} {cause : Cause} {id : Nat} (why : Ended t id st cause) :
    Path (Deed t) n (n.finishCall st cause id) := by
  unfold finishCall
  cases hfound : n.calls.lookup id with
  | none => exact .refl
  | some c =>
    exact (Relation.ReflTransGen.single (.finish id c st cause hfound why)).trans (acts_path _ c.cb)

theorem finishAll_path (p : PendingCall → Bool) (st : Status) :
    Path (Deed t) n (n.finishAll p st) := by
  unfold finishAll
  have hstart : Path (Deed t) n { n with env := { n.env with orders := n.env.orders.tail } } :=
    deed_still ⟨rfl, fun _ => rfl⟩
  have hloop :=
    Path.foldl (R := Deed t) (P := fun _ => True) (finishCall · st .layer ·) (n.openCalls p)
    (fun m id _ _ => ⟨finishCall_path (Or.inl rfl), trivial⟩)
    { n with env := { n.env with orders := n.env.orders.tail } } trivial
  exact hstart.trans hloop.1

/-! ### What deeds leave alone -/

/-- The session with a peer and what is known of it. -/
def Peer.standing (p : Peer) : Option Nat × Nat × Bool :=
  (p.session, p.remoteBoot, p.acked)

theorem standing_setPeer {a b : Endpoint} {p : Peer} (h : p.standing = (n.peer a).standing) :
    ((n.setPeer a p).peer b).standing = (n.peer b).standing := by
  rcases peer_setPeer_cases (n := n) (a := a) (p := p) b with ⟨rfl, hb⟩ | ⟨_, hb⟩
  · rw [hb, h]
  · rw [hb]

/-- Deeds leave sessions alone, and what is known of a peer. -/
theorem Deed.standing_eq {n' : RpcNode} (h : Deed t n n') (a : Endpoint) :
    (n'.peer a).standing = (n.peer a).standing := by
  cases h with
  | still n' h =>
    change ((n'.peer a).core).standing = ((n.peer a).core).standing
    rw [h.peer a]
  | refuse | callSent | answer | release | finish => rfl
  | callQueued dst method body timeout cb => exact standing_setPeer rfl
  | hello b => exact standing_setPeer rfl

/-- The incarnation and the step. -/
structure SameRun (n n' : RpcNode) : Prop where
  self : n'.self = n.self
  boot : n'.boot = n.boot
  boots : n'.boots = n.boots
  stamp : n'.env.stamp = n.env.stamp

theorem Deed.sameRun {n' : RpcNode} (h : Deed t n n') : SameRun n n' := by
  cases h with
  | still n' h =>
    exact ⟨h.field RpcNode.self, h.field RpcNode.boot, h.field RpcNode.boots, h.field (·.env.stamp)⟩
  | refuse | callSent | answer | release | finish | callQueued | hello => exact ⟨rfl, rfl, rfl, rfl⟩

theorem Move.sameRun {n' : RpcNode} (h : Move t n n') : SameRun n n' := by
  cases h with
  | deed n' h => exact h.sameRun
  | ack | flush | dropped | greeted | acked | created | opened | forgot | passed =>
    exact ⟨rfl, rfl, rfl, rfl⟩

theorem sameRun_of_moves {n' : RpcNode} (h : Path (Move t) n n') : SameRun n n' :=
  h.keeps (P := fun m => SameRun n m)
    (fun _ _ hmove hm => ⟨hmove.sameRun.self.trans hm.self, hmove.sameRun.boot.trans hm.boot,
      hmove.sameRun.boots.trans hm.boots, hmove.sameRun.stamp.trans hm.stamp⟩)
    ⟨rfl, rfl, rfl, rfl⟩

theorem standing_of_deeds {n' : RpcNode} (h : Path (Deed t) n n') (a : Endpoint) :
    (n'.peer a).standing = (n.peer a).standing :=
  h.keeps (P := fun m => (m.peer a).standing = (n.peer a).standing)
    (fun _ _ hmove hm => (hmove.standing_eq a).trans hm) rfl

/-! ### Handlers -/

theorem Path.of_deeds {n' : RpcNode} (h : Path (Deed t) n n') : Path (Move t) n n' :=
  h.keeps (P := Path (Move t) n) (fun _ _ hdeed hm => hm.tail (.deed _ hdeed)) .refl

theorem teardown_path (a : Endpoint) (why : Drops t n a) : Path (Move t) n (n.teardown a) :=
  (Relation.ReflTransGen.single (.dropped a why)).trans (Path.of_deeds (finishAll_path _ _))

/-- After a teardown there is no session, and what was known of the peer is still known. -/
theorem standing_teardown (a : Endpoint) :
    ((n.teardown a).peer a).standing = (none, (n.peer a).remoteBoot, (n.peer a).acked) := by
  have hdeeds : Path (Deed .tick) (n.dropSession a) (n.teardown a) := finishAll_path _ _
  rw [standing_of_deeds hdeeds a]
  change ((n.setPeer a _).peer a).standing = _
  rw [peer_setPeer]
  rfl

theorem flushPending_path (a : Endpoint) (fs : List Frame) (n : RpcNode)
    (standing : (n.peer a).session.isSome) (pending : (n.peer a).pending = fs) :
    Path (Move t) n (n.flushPending a fs) := by
  induction fs generalizing n with
  | nil => exact .refl
  | cons f fs ih =>
    rw [flushPending]
    by_cases hsend : n.accepts = true
    · rw [if_pos hsend, send_of_accepts hsend]
      have hflush := Move.flush (t := t) (n := n.spent) a f fs standing pending
      refine ((Path.of_deeds spent_path).tail hflush).trans (ih _ ?_ ?_)
      · rw [peer_setPeer]
        exact standing
      · rw [peer_setPeer]
    · rw [if_neg hsend, send_of_refuses hsend]
      exact Path.of_deeds spent_path

theorem establish_path (src : Endpoint) (h : Hello) (trigger : t = .hello src h)
    (none_ : (n.peer src).session = none) (acked : (n.peer src).acked = true)
    (known : (n.peer src).remoteBoot = h.senderBoot) : Path (Move t) n (n.establish src) := by
  refine (Relation.ReflTransGen.single (.created src h trigger none_ acked known)).trans ?_
  refine flushPending_path src _ _ ?_ ?_
  · rw [peer_setPeer]
    rfl
  · rw [peer_setPeer]

theorem restarted_congr {m : RpcNode} {src : Endpoint} (h : Hello)
    (hsame : (m.peer src).remoteBoot = (n.peer src).remoteBoot) :
    m.restarted src h = n.restarted src h := by
  rw [restarted, hsame]
  rfl

/-- The first half of a greeting and of an acknowledgement: if the peer has restarted, the
    session goes. -/
theorem reset_path (src : Endpoint) (h : Hello) (trigger : t = .hello src h)
    (echo : h.isAck = true → h.echoBoot = n.boot) :
    ∃ m, (if n.restarted src h then n.teardown src else n) = m ∧ Path (Move t) n m ∧
      m.restarted src h = n.restarted src h ∧ (m.peer src).acked = (n.peer src).acked ∧
      (m.restarted src h = true → (m.peer src).session = none) := by
  by_cases hboot : n.restarted src h = true
  · rw [if_pos hboot]
    have hstanding := standing_teardown (n := n) src
    simp only [Peer.standing, Prod.mk.injEq] at hstanding
    exact ⟨_, rfl, teardown_path src (Or.inl ⟨h, trigger, hboot, echo⟩),
      restarted_congr h hstanding.2.1, hstanding.2.2, fun _ => hstanding.1⟩
  · rw [if_neg hboot]
    exact ⟨n, rfl, .refl, rfl, rfl, fun hc => absurd hc hboot⟩

theorem handleAck_path (src : Endpoint) (h : Hello) (trigger : t = .hello src h)
    (isAck : h.isAck = true) : Path (Move t) n (n.handleAck src h) := by
  unfold handleAck
  by_cases hecho : h.echoBoot ≠ n.boot
  · rw [if_pos hecho]
  rw [if_neg hecho]
  have hecho : h.echoBoot = n.boot := not_not.mp hecho
  rcases reset_path (n := n) src h trigger (fun _ => hecho) with ⟨m, hm, hpath, _, _, hgone⟩
  simp only [hm]
  have hboot := (sameRun_of_moves hpath).boot
  refine (hpath.tail (.acked src h trigger isAck (hecho.trans hboot.symm) hgone)).trans ?_
  split
  · rename_i hnone
    exact establish_path src h trigger hnone (by rw [peer_setPeer]) (by rw [peer_setPeer])
  · exact .refl

/-- Noting a boot is a reset and one change of the peer. -/
theorem noteBoot_path (src : Endpoint) (h : Hello) (trigger : t = .hello src h)
    (greeting : h.isAck = false) :
    Path (Move t) n (n.noteBoot src h) ∧
    ((n.noteBoot src h).peer src).remoteBoot = h.senderBoot := by
  have hack : h.isAck = true → h.echoBoot = n.boot := fun hc => by rw [greeting] at hc; cases hc
  rcases reset_path (n := n) src h trigger hack with ⟨m, hm, hpath, hsame, hacked, hgone⟩
  have hnote : n.noteBoot src h = m.setPeer src { m.peer src with
      remoteBoot := h.senderBoot
      acked := (m.peer src).acked && !m.restarted src h } := by
    unfold noteBoot
    by_cases hboot : n.restarted src h = true
    · rw [if_pos hboot] at hm
      simp only [hboot, if_true, hm, hsame, peer_setPeer, Bool.not_true, Bool.and_false]
      simp only [setPeer, AList.insert_insert]
    · rw [if_neg hboot] at hm
      subst hm
      simp only [hboot, Bool.not_false, Bool.and_true, Bool.false_eq_true, if_false]
  rw [hnote]
  exact ⟨hpath.tail (.greeted src h trigger greeting hgone), by rw [peer_setPeer]⟩

theorem greetBack_path (src : Endpoint) : Path (Deed t) n (n.greetBack src) := by
  unfold greetBack
  split
  · exact .single (.hello src)
  · exact .refl

theorem handleGreeting_path (src : Endpoint) (h : Hello) (trigger : t = .hello src h)
    (greeting : h.isAck = false) : Path (Move t) n (n.handleGreeting src h) := by
  unfold handleGreeting
  rcases noteBoot_path (n := n) src h trigger greeting with ⟨hpath, hknown⟩
  have hack : Path (Move t) n ((n.noteBoot src h).acknowledge src h) :=
    hpath.tail (.ack src h trigger greeting hknown)
  have hback : Path (Deed t) ((n.noteBoot src h).acknowledge src h)
      (((n.noteBoot src h).acknowledge src h).greetBack src) := greetBack_path src
  -- Greeting back leaves alone what was noted.
  have hstill := standing_of_deeds hback src
  simp only [Peer.standing, Prod.mk.injEq] at hstill
  have hall := hack.trans (Path.of_deeds hback)
  simp only
  split
  · rename_i hready
    exact hall.trans (establish_path src h trigger hready.2.2 hready.2.1 (hstill.2.1.trans hknown))
  · exact hall

theorem handleHello_path (src : Endpoint) (h : Hello) (trigger : t = .hello src h) :
    Path (Move t) n (n.handleHello src h) := by
  unfold handleHello
  have hentry : Path (Move t) n (n.setPeer src (n.peer src)) :=
    Path.of_deeds (deed_still (still_setPeer rfl))
  simp only
  cases hack : h.isAck with
  | true => exact hentry.trans (handleAck_path src h trigger hack)
  | false => exact hentry.trans (handleGreeting_path src h trigger hack)

theorem handleStranger_path (src : Endpoint) : Path (Move t) n (n.handleStranger src) := by
  unfold handleStranger
  split
  · exact .refl
  · have hpaced : Path (Deed t) n { n with
        strangerNext := n.strangerNext.insert src (n.now + kStrangerInterval) } :=
      deed_still ⟨rfl, fun _ => rfl⟩
    exact Path.of_deeds (hpaced.tail (.hello src))

theorem receive_path (src : Endpoint) (f : Frame) (as : List Action)
    (trigger : t = .frame src f as) : Path (Move t) n (n.receive src f as) := by
  unfold receive
  split
  · cases f with
    | response ctx st body =>
      exact Path.of_deeds (finishCall_path (Or.inr ⟨src, ctx, body, as, trigger, rfl, rfl⟩))
    | request method reqId body boot =>
      rw [dispatch]
      refine (Relation.ReflTransGen.single (.opened src method reqId body boot as trigger)).trans ?_
      simp only
      split
      · exact Path.of_deeds (acts_path _ as)
      · exact Path.of_deeds ((respond_path _ _ _).tail (.release _))
  · exact handleStranger_path src

theorem peerDead_path (a : Endpoint) (trigger : t = .peerDead a) :
    Path (Move t) n (n.peerDead a) := by
  unfold peerDead
  split
  · have hgone : ((n.teardown a).peer a).session = none := congrArg Prod.fst (standing_teardown a)
    exact (teardown_path a (Or.inr trigger)).tail (.forgot a trigger hgone)
  · exact Path.of_deeds (finishAll_path _ _)

theorem tickPeer_path (a : Endpoint) : Path (Move t) n (n.tickPeer a) := by
  unfold tickPeer
  split
  · exact flushPending_path a _ n (by assumption) rfl
  · split
    · exact .single (.deed _ (.hello a))
    · exact .refl

theorem tickPeers_path (as : List Endpoint) : Path (Move t) n (as.foldl tickPeer n) :=
  (Path.foldl (P := fun _ => True) tickPeer as (fun _ a _ _ => ⟨tickPeer_path a, trivial⟩) n
    trivial).1

/-- A handler is a sequence of moves. -/
theorem react_path (t : Input) : Path (Move t) n (n.react t) := by
  cases t with
  | act as => exact Path.of_deeds (acts_path n as)
  | hello src h => exact handleHello_path src h rfl
  | frame src f as => exact receive_path src f as rfl
  | peerDead a => exact peerDead_path a rfl
  | tick => exact (tickPeers_path _).trans (Path.of_deeds (finishAll_path _ _))
  | advance d => exact .single (.passed d rfl)

end Paths

end Tautq.Rpc
