import Tautq.Theory.RpcNet

/-!
# Sessions Stay Paired

A session numbers what it sends from one, so a session at one end is of no use with a
session at the other end that has been there longer: what the fresh one sends looks like
a replay. The handshake is to reset both ends. It resets an end when that end learns of a
boot id that it did not know.

A death verdict destroys a session without any new boot id. If the other end keeps its own,
the next handshake leaves the two ends unpaired. A greeting of an earlier
incarnation that arrives late does the same: the boot id in it is news, but it is not new.
Without these two the ends are paired.

The invariant is about two nodes and has one side for each. Its centre is
that a node which was confirmed by the present incarnation of its peer is known to that
incarnation, or forgotten, but not taken for an earlier one: this is why no greeting makes the
peer drop a session whose other end is present.

## Main definitions

* `Turn`: What a move does to one peer's entry.
* `Side`: What holds of one node and what it has sent to another.
* `Paired`: The property.
* `Settled`: The condition on verdicts and restarts.

## Theorems

* `Side.near`, `Side.far`: A move of either node keeps a side.
* `sessions_paired`: The ends are paired.
* `sessions_unpaired`: A verdict unpairs them.
-/

namespace Tautq.Rpc

open RpcNode

/-! ### What a move does to a peer -/

/-- The session with a peer, and what is known of it. -/
structure Peer.Is (p : Peer) (session : Option Nat) (known : Nat) (acked : Bool) : Prop where
  session : p.session = session
  known : p.remoteBoot = known
  acked : p.acked = acked

/-- What a move does to the entry of one peer. -/
inductive Turn (t : Input) (n : RpcNode) (x : Endpoint) (n' : RpcNode) : Prop where
  | same (now : (n'.peer x).Is (n.peer x).session (n.peer x).remoteBoot (n.peer x).acked)
      (died : n'.died x = n.died x)
  | dropped (why : Drops t n x) (now : (n'.peer x).Is none (n.peer x).remoteBoot (n.peer x).acked)
      (died : n'.died x = if (n.peer x).session.isSome then n.env.stamp else n.died x)
  | told (h : Hello) (trigger : t = .hello x h) (session : (n'.peer x).session = (n.peer x).session)
      (known : (n'.peer x).remoteBoot = h.senderBoot)
      (gone : n.restarted x h = true → (n.peer x).session = none)
      (acked : (n'.peer x).acked = true →
        ((n.peer x).acked = true ∧ n.restarted x h = false) ∨
        (h.isAck = true ∧ h.echoBoot = n.boot))
      (kept : (n.peer x).session ≠ none → (n.peer x).acked = true → (n'.peer x).acked = true)
      (died : n'.died x = n.died x)
  | created (h : Hello) (trigger : t = .hello x h) (none_ : (n.peer x).session = none)
      (acked : (n.peer x).acked = true) (known : (n.peer x).remoteBoot = h.senderBoot)
      (now : (n'.peer x).Is (some n.env.stamp) h.senderBoot true) (died : n'.died x = n.died x)
  | forgot (none_ : (n.peer x).session = none) (now : (n'.peer x).Is none 0 false)
      (died : n'.died x = n.died x)

section Turns

variable {t : Input} {n n' : RpcNode} {x : Endpoint}

theorem Peer.Is.of_standing {p p' : Peer} (h : p'.standing = p.standing) :
    p'.Is p.session p.remoteBoot p.acked := by
  simp only [Peer.standing, Prod.mk.injEq] at h
  exact ⟨h.1, h.2.1, h.2.2⟩

theorem Deed.died_eq (h : Deed t n n') : n'.died = n.died := by
  cases h with
  | still n' h => exact h.field RpcNode.died
  | refuse | callSent | answer | release | finish | callQueued | hello => rfl

/-- A change of another peer's entry. -/
theorem turn_of_other {a : Endpoint} {p : Peer} {d : Endpoint → Nat} (hx : x ≠ a)
    (hd : d x = n.died x) : Turn t n x { n.setPeer a p with died := d } :=
  .same (.of_standing (congrArg Peer.standing (peer_setPeer_ne hx))) hd

theorem Move.turn (hmove : Move t n n') (x : Endpoint) : Turn t n x n' := by
  cases hmove with
  | deed n' h => exact .same (.of_standing (h.standing_eq x)) (congrFun h.died_eq x)
  | ack | opened | passed => exact .same (.of_standing rfl) rfl
  | flush a f fs =>
    exact .same (.of_standing (standing_setPeer (n := { n with frames := _ }) rfl)) rfl
  | dropped a why =>
    by_cases hx : x = a
    · subst hx
      have hnow : (n.dropSession x).peer x = _ := peer_setPeer
      refine .dropped why ⟨by rw [hnow], by rw [hnow], by rw [hnow]⟩ ?_
      simp only [dropSession]
      split
      · rw [Function.update_self]
      · rfl
    · refine turn_of_other hx ?_
      split
      · rw [Function.update_of_ne hx]
      · rfl
  | greeted src h trigger greeting gone =>
    by_cases hx : x = src
    · subst hx
      refine .told h trigger (by rw [peer_setPeer]) (by rw [peer_setPeer]) gone ?_ ?_ rfl
      · rw [peer_setPeer, Bool.and_eq_true, Bool.not_eq_true']
        exact Or.inl
      · intro hsome hacked
        rw [peer_setPeer, Bool.and_eq_true, Bool.not_eq_true']
        exact ⟨hacked, Bool.eq_false_iff.mpr fun hc => hsome (gone hc)⟩
    · exact turn_of_other hx rfl
  | acked src h trigger isAck echo gone =>
    by_cases hx : x = src
    · subst hx
      exact .told h trigger (by rw [peer_setPeer]) (by rw [peer_setPeer]) gone
        (fun _ => Or.inr ⟨isAck, echo⟩) (fun _ _ => by rw [peer_setPeer]) rfl
    · exact turn_of_other hx rfl
  | created src h trigger none_ acked known =>
    by_cases hx : x = src
    · subst hx
      refine .created h trigger none_ acked known ?_ rfl
      rw [peer_setPeer]
      exact ⟨rfl, known, acked⟩
    · exact turn_of_other hx rfl
  | forgot a trigger gone =>
    by_cases hx : x = a
    · subst hx
      refine .forgot gone ?_ rfl
      rw [peer_erase, if_pos rfl]
      exact ⟨rfl, rfl, rfl⟩
    · refine .same (.of_standing ?_) rfl
      rw [peer_erase, if_neg hx]

/-- What is sent carries the present boot; an acknowledgement is for the greeting that is
    handled, and its sender is known by then. -/
theorem Move.hellos_cases (hmove : Move t n n') {m : Endpoint × Hello} (hm : m ∈ n'.hellos) :
    m ∈ n.hellos ∨ (m.2.senderBoot = n.boot ∧ (m.2.isAck = true →
      ∃ h, t = .hello m.1 h ∧ m.2.echoBoot = h.senderBoot ∧
      (n'.peer m.1).remoteBoot = h.senderBoot)) := by
  cases hmove with
  | deed n' h =>
    cases h with
    | still n' h =>
      rw [show n'.hellos = n.hellos from h.field RpcNode.hellos] at hm
      exact Or.inl hm
    | refuse | callSent | answer | release | finish | callQueued => exact Or.inl hm
    | hello a =>
      rcases List.mem_append.mp hm with hm | hm
      · exact Or.inl hm
      · rw [List.mem_singleton.mp hm]
        exact Or.inr ⟨rfl, by simp⟩
  | flush | dropped | greeted | acked | created | opened | forgot | passed => exact Or.inl hm
  | ack src h trigger greeting known =>
    rcases List.mem_append.mp hm with hm | hm
    · exact Or.inl hm
    · rw [List.mem_singleton.mp hm]
      exact Or.inr ⟨rfl, fun _ => ⟨h, trigger, rfl, known⟩⟩

end Turns

/-! ### One side of a pair -/

/-- A boot id is unknown or a given one. -/
def Knows (known boot : Nat) : Prop :=
  known = 0 ∨ known = boot

/-- What holds of the node `p` at `a`, the node `q` at `b`, and what is in flight from `a` to
    `b`. -/
structure Side (a b : Endpoint) (p q : RpcNode) (sent : Hello → Prop) : Prop where
  sender : ∀ h, sent h → h.senderBoot = p.boot
  acked_of_session : (p.peer b).session ≠ none → (p.peer b).acked = true
  known_of_acked : (p.peer b).acked = true → (p.peer b).remoteBoot ≠ 0
  drawn : (p.peer b).remoteBoot ∈ 0 :: q.boot :: q.boots
  echo : ∀ h, sent h → h.isAck = true → h.echoBoot ∈ q.boot :: q.boots
  echoed : ∀ h, sent h → h.isAck = true → h.echoBoot = q.boot → Knows (p.peer b).remoteBoot q.boot
  confirmed : (q.peer a).acked = true → (q.peer a).remoteBoot = p.boot →
    Knows (p.peer b).remoteBoot q.boot
  later : ∀ k, (q.peer a).session = some k → (q.peer a).remoteBoot = p.boot → p.died b < k
  present : (p.peer b).session ≠ none → (q.peer a).session ≠ none →
    (p.peer b).remoteBoot = q.boot ∨ (q.peer a).remoteBoot = p.boot

section Sides

variable {t : Input} {a b : Endpoint} {p p' q : RpcNode} {sent sent' back : Hello → Prop}

/-- A node that has not been told of a restart has known the boot before, if it was confirmed. -/
theorem Side.known_before (hside : Side a b p q sent) {h : Hello} (hacked : (p.peer b).acked = true)
    (hsame : p.restarted b h = false) : (p.peer b).remoteBoot = h.senderBoot := by
  have hknown := hside.known_of_acked hacked
  simpa [restarted, hknown] using hsame

/-- What a handled greeting says, as it is still in flight. -/
structure Heard (a : Endpoint) (p q : RpcNode) (h : Hello) : Prop where
  sender : h.senderBoot = q.boot
  booted : q.boot ≠ 0
  echoed : h.isAck = true → h.echoBoot = p.boot → Knows (q.peer a).remoteBoot p.boot

/-- A node that knows its peer's boot by a greeting, or has known it, or has forgotten it. -/
theorem Turn.known_cases (hturn : Turn t p b p') (heard : ∀ h, t = .hello b h → Heard a p q h) :
    (p'.peer b).remoteBoot = (p.peer b).remoteBoot ∨ Knows (p'.peer b).remoteBoot q.boot := by
  cases hturn with
  | same now died => exact Or.inl now.known
  | dropped why now died => exact Or.inl now.known
  | told h trigger session known gone acked kept died =>
    exact Or.inr (Or.inr (known.trans (heard h trigger).sender))
  | created h trigger none_ acked known now died =>
    exact Or.inr (Or.inr (now.known.trans (heard h trigger).sender))
  | forgot none_ now died => exact Or.inr (Or.inl now.known)

/-- A side keeps with a move of its own node. -/
theorem Side.near (hside : Side a b p q sent) (hback : Side b a q p back) (hmove : Move t p p')
    (heard : ∀ h, t = .hello b h → Heard a p q h)
    (verdict : t = .peerDead b → (p.peer b).session ≠ none → (q.peer a).session = none)
    (hsent : ∀ h, sent' h → sent h ∨ (h.senderBoot = p.boot ∧ (h.isAck = true →
      ∃ g, t = .hello b g ∧ h.echoBoot = g.senderBoot ∧ (p'.peer b).remoteBoot = g.senderBoot))) :
    Side a b p' q sent' := by
  have hturn := hmove.turn b
  have hknown := hturn.known_cases heard
  have hkeeps : Knows (p.peer b).remoteBoot q.boot → Knows (p'.peer b).remoteBoot q.boot := by
    intro h
    rcases hknown with hsame | hnew
    · rw [hsame]
      exact h
    · exact hnew
  have hboot := hmove.sameRun.boot
  constructor
  case sender =>
    intro h hh
    rw [hboot]
    exact (hsent h hh).elim (hside.sender h) And.left
  case acked_of_session =>
    intro hsome
    cases hturn with
    | same now died => exact now.acked.trans (hside.acked_of_session (now.session ▸ hsome))
    | dropped why now died => exact absurd now.session hsome
    | told h trigger session known gone acked kept died =>
      have hsome : (p.peer b).session ≠ none := session ▸ hsome
      exact kept hsome (hside.acked_of_session hsome)
    | created h trigger none_ acked known now died => exact now.acked
    | forgot none_ now died => exact absurd now.session hsome
  case known_of_acked =>
    intro hacked
    cases hturn with
    | same now died => exact now.known ▸ hside.known_of_acked (now.acked ▸ hacked)
    | dropped why now died => exact now.known ▸ hside.known_of_acked (now.acked ▸ hacked)
    | told h trigger session known gone acked kept died =>
      rw [known, (heard h trigger).sender]
      exact (heard h trigger).booted
    | created h trigger none_ acked known now died =>
      rw [now.known, (heard h trigger).sender]
      exact (heard h trigger).booted
    | forgot none_ now died =>
      rw [now.acked] at hacked
      cases hacked
  case drawn =>
    rcases hknown with hsame | hnew | hnew
    · rw [hsame]
      exact hside.drawn
    · simp [hnew]
    · simp [hnew]
  case echo =>
    intro h hh hack
    rcases hsent h hh with hold | ⟨_, hnew⟩
    · exact hside.echo h hold hack
    · rcases hnew hack with ⟨g, htrigger, hecho, _⟩
      rw [hecho, (heard g htrigger).sender]
      exact List.mem_cons_self
  case echoed =>
    intro h hh hack hcur
    rcases hsent h hh with hold | ⟨_, hnew⟩
    · exact hkeeps (hside.echoed h hold hack hcur)
    · rcases hnew hack with ⟨g, htrigger, _, hgreeted⟩
      exact Or.inr (hgreeted.trans (heard g htrigger).sender)
  case confirmed =>
    intro hacked hcur
    exact hkeeps (hside.confirmed hacked (hcur.trans hboot))
  case later =>
    intro k hk hcur
    rw [hboot] at hcur
    have hlater := hside.later k hk hcur
    cases hturn with
    | same now died => exact died ▸ hlater
    | told h trigger session known gone acked kept died => exact died ▸ hlater
    | created h trigger none_ acked known now died => exact died ▸ hlater
    | forgot none_ now died => exact died ▸ hlater
    | dropped why now died =>
      rw [died]
      split
      · -- The peer has a session with this incarnation: then nothing tells of a restart of it,
        -- and no verdict falls.
        rename_i hsome
        exfalso
        rcases why with ⟨h, htrigger, hrestarted, _⟩ | htrigger
        · have hacked := hback.acked_of_session (by rw [hk]; simp)
          have hheard := (heard h htrigger).sender
          rw [restarted, Bool.and_eq_true, decide_eq_true_eq, decide_eq_true_eq] at hrestarted
          rcases hside.confirmed hacked hcur with h0 | h0
          · exact hrestarted.1 h0
          · exact hrestarted.2 (h0.trans hheard.symm)
        · have hnone := verdict htrigger (Option.isSome_iff_ne_none.mp hsome)
          rw [hk] at hnone
          cases hnone
      · exact hlater
  case present =>
    intro hsome hother
    rw [hboot]
    cases hturn with
    | same now died =>
      rw [now.known]
      exact hside.present (now.session ▸ hsome) hother
    | dropped why now died => exact absurd now.session hsome
    | told h trigger session known gone acked kept died =>
      exact Or.inl (known.trans (heard h trigger).sender)
    | created h trigger none_ acked known now died =>
      exact Or.inl (now.known.trans (heard h trigger).sender)
    | forgot none_ now died => exact absurd now.session hsome

/-- And with a move of the other node. -/
theorem Side.far (hback : Side b a q p back) (hside : Side a b p q sent) (hmove : Move t p p')
    (heard : ∀ h, t = .hello b h → Heard a p q h) (hstamp : q.died a < p.env.stamp) :
    Side b a q p' back := by
  have hturn := hmove.turn b
  have hboot := hmove.sameRun.boot
  have hboots := hmove.sameRun.boots
  constructor
  case sender => exact hback.sender
  case acked_of_session => exact hback.acked_of_session
  case known_of_acked => exact hback.known_of_acked
  case drawn =>
    rw [hboot, hboots]
    exact hback.drawn
  case echo =>
    rw [hboot, hboots]
    exact hback.echo
  case echoed =>
    rw [hboot]
    exact hback.echoed
  case confirmed =>
    intro hacked hcur
    rw [hboot]
    cases hturn with
    | same now died => exact hback.confirmed (now.acked ▸ hacked) (now.known ▸ hcur)
    | dropped why now died => exact hback.confirmed (now.acked ▸ hacked) (now.known ▸ hcur)
    | told h trigger session known gone acked kept died =>
      -- It was confirmed before, or the acknowledgement was in flight.
      rcases acked hacked with ⟨hbefore, hsame⟩ | ⟨hack, hecho⟩
      · exact hback.confirmed hbefore
          ((hside.known_before hbefore hsame).trans (heard h trigger).sender)
      · exact (heard h trigger).echoed hack hecho
    | created h trigger none_ acked known now died =>
      exact hback.confirmed acked (known.trans (heard h trigger).sender)
    | forgot none_ now died =>
      rw [now.acked] at hacked
      cases hacked
  case later =>
    intro k hk hcur
    cases hturn with
    | same now died => exact hback.later k (now.session ▸ hk) (now.known ▸ hcur)
    | dropped why now died =>
      rw [now.session] at hk
      cases hk
    | told h trigger session known gone acked kept died =>
      rw [session] at hk
      -- A session stands, so nothing new was told.
      have hacked := hside.acked_of_session (by rw [hk]; simp)
      have hsame : p.restarted b h = false := by
        refine Bool.eq_false_iff.mpr fun hc => ?_
        rw [gone hc] at hk
        cases hk
      exact hback.later k hk ((hside.known_before hacked hsame).trans (heard h trigger).sender)
    | created h trigger none_ acked known now died =>
      rw [now.session, Option.some.injEq] at hk
      exact hk ▸ hstamp
    | forgot none_ now died =>
      rw [now.session] at hk
      cases hk
  case present =>
    intro hother hsome
    rw [hboot]
    cases hturn with
    | same now died =>
      rw [now.known]
      exact hback.present hother (now.session ▸ hsome)
    | dropped why now died => exact absurd now.session hsome
    | told h trigger session known gone acked kept died =>
      exact Or.inr (known.trans (heard h trigger).sender)
    | created h trigger none_ acked known now died =>
      exact Or.inr (now.known.trans (heard h trigger).sender)
    | forgot none_ now died => exact absurd now.session hsome

/-- A side keeps with a restart of its own node, if nothing that it has sent is in flight. -/
theorem Side.near_restart (hback : Side b a q p back) {stamp boot : Nat} (hzero : boot ≠ 0)
    (hfresh : boot ∉ p.boot :: p.boots) (hsent : ∀ h, ¬ sent h) :
    Side a b (p.restart stamp boot) q sent where
  sender h hh := absurd hh (hsent h)
  acked_of_session hsome := absurd rfl hsome
  known_of_acked hacked := by cases hacked
  drawn := List.mem_cons_self
  echo h hh := absurd hh (hsent h)
  echoed h hh := absurd hh (hsent h)
  confirmed _ _ := Or.inl rfl
  later k _ hcur := by
    -- The other node cannot know a boot that was never drawn.
    have hdrawn := hback.drawn
    rw [hcur] at hdrawn
    rcases List.mem_cons.mp hdrawn with hdrawn | hdrawn
    · exact absurd hdrawn hzero
    · exact absurd hdrawn hfresh
  present hsome _ := absurd rfl hsome

theorem Side.far_restart (hback : Side b a q p back) {stamp boot : Nat}
    (hfresh : boot ∉ p.boot :: p.boots) : Side b a q (p.restart stamp boot) back where
  sender := hback.sender
  acked_of_session := hback.acked_of_session
  known_of_acked := hback.known_of_acked
  drawn := by
    rcases List.mem_cons.mp hback.drawn with hdrawn | hdrawn
    · exact List.mem_cons.mpr (Or.inl hdrawn)
    · exact List.mem_cons_of_mem _ (List.mem_cons_of_mem _ hdrawn)
  echo h hh hack := List.mem_cons_of_mem _ (hback.echo h hh hack)
  echoed h hh hack hcur := by
    have hecho := hback.echo h hh hack
    rw [hcur] at hecho
    exact absurd hecho hfresh
  confirmed hacked _ := by cases hacked
  later k hk _ := by cases hk
  present _ hsome := absurd rfl hsome

theorem Side.mono (hside : Side a b p q sent) (hsent : ∀ h, sent' h → sent h) :
    Side a b p q sent' :=
  { hside with
    sender := fun h hh => hside.sender h (hsent h hh)
    echo := fun h hh => hside.echo h (hsent h hh)
    echoed := fun h hh => hside.echoed h (hsent h hh) }

/-- Only a greeting creates a session. -/
theorem no_session_of_moves {n n' : RpcNode} {x : Endpoint} (hpath : Path (Move t) n n')
    (ht : ∀ y h, t ≠ .hello y h) (hnone : (n.peer x).session = none) :
    (n'.peer x).session = none := by
  refine hpath.keeps (P := fun m => (m.peer x).session = none) (fun m m' hmove hm => ?_) hnone
  cases hmove.turn x with
  | same now died => exact now.session.trans hm
  | dropped why now died => exact now.session
  | told h trigger => exact absurd trigger (ht x h)
  | created h trigger => exact absurd trigger (ht x h)
  | forgot none_ now died => exact now.session

end Sides

/-! ### The network -/

/-- Both sides of every pair, and the clock is ahead of what has been destroyed. -/
structure Handshake (s : Net) : Prop where
  booted : ∀ e, (s.node e).boot ≠ 0
  died : ∀ a b, (s.node a).died b ≤ s.clock
  side : ∀ a b, a ≠ b → Side a b (s.node a) (s.node b) (fun h => (a, b, h) ∈ s.hellos)

/-- A verdict on a peer falls only when one of the two has no session with the other, and a
    process is started again only when no greeting and no acknowledgement of its is in flight. -/
def Settled (s : Net) : Act → Prop
  | .peerDead e _ a => ((s.node e).peer a).session = none ∨ ((s.node a).peer e).session = none
  | .restart e _ => ∀ m ∈ s.hellos, m.1 ≠ e
  | .act .. | .tick .. | .advance .. | .hello .. | .frame .. | .loseHello _ | .loseFrame _ => True

instance (s : Net) : ∀ a, Decidable (Settled s a)
  | .peerDead .. => inferInstanceAs (Decidable (_ ∨ _))
  | .restart e _ => inferInstanceAs (Decidable (∀ m ∈ s.hellos, m.1 ≠ e))
  | .act .. | .tick .. | .advance .. | .hello .. | .frame .. | .loseHello _ | .loseFrame _ =>
    .isTrue trivial

section Put

variable {s : Net} {e x : Endpoint} {n : RpcNode}

theorem put_self : (s.put e n).node e = { n with hellos := [], frames := [] } :=
  Function.update_self ..

theorem put_other (hx : x ≠ e) : (s.put e n).node x = s.node x :=
  Function.update_of_ne hx ..

/-- What is in flight from the node that acts, and from the others. -/
theorem mem_put_self {h : Hello} :
    (e, x, h) ∈ (s.put e n).hellos ↔ (e, x, h) ∈ s.hellos ∨ (x, h) ∈ n.hellos := by
  simp [Net.put]

theorem mem_put_other {y : Endpoint} {h : Hello} (hx : x ≠ e) :
    (x, y, h) ∈ (s.put e n).hellos ↔ (x, y, h) ∈ s.hellos := by
  simp [Net.put, hx.symm]

end Put

/-- Two states of a node with the same sessions in the same incarnation. -/
structure SameEnd (n n' : RpcNode) : Prop where
  peers : n'.peers = n.peers
  boot : n'.boot = n.boot
  boots : n'.boots = n.boots
  died : n'.died = n.died

theorem SameEnd.peer_eq {n n' : RpcNode} (h : SameEnd n n') (x : Endpoint) :
    n'.peer x = n.peer x := by
  rw [RpcNode.peer, h.peers]
  rfl

theorem Side.congr {a b : Endpoint} {p p' q q' : RpcNode} {sent : Hello → Prop}
    (hside : Side a b p q sent) (hp : SameEnd p p') (hq : SameEnd q q') : Side a b p' q' sent := by
  constructor <;> simp only [hp.peer_eq, hq.peer_eq, hp.boot, hq.boot, hq.boots, hp.died]
  exacts [hside.sender, hside.acked_of_session, hside.known_of_acked, hside.drawn, hside.echo,
    hside.echoed, hside.confirmed, hside.later, hside.present]

theorem Handshake.sides {s : Net} {e x : Endpoint} {n : RpcNode} (hs : Handshake (s.put e n))
    (hx : x ≠ e) :
    Side e x n (s.node x) (fun h => (e, x, h) ∈ (s.put e n).hellos) ∧
      Side x e (s.node x) n (fun h => (x, e, h) ∈ (s.put e n).hellos) := by
  have halike : SameEnd ((s.put e n).node e) n := by
    rw [put_self]
    exact ⟨rfl, rfl, rfl, rfl⟩
  have hother : SameEnd ((s.put e n).node x) (s.node x) := by
    rw [put_other hx]
    exact ⟨rfl, rfl, rfl, rfl⟩
  exact ⟨(hs.side e x hx.symm).congr halike hother, (hs.side x e hx).congr hother halike⟩

theorem Handshake.put {s : Net} {e : Endpoint} {n : RpcNode} (hs : Handshake s)
    (hboot : n.boot = (s.node e).boot) (hdied : ∀ x, n.died x ≤ s.clock + 1)
    (hsides : ∀ x ≠ e, Side e x n (s.node x) (fun h => (e, x, h) ∈ (s.put e n).hellos) ∧
      Side x e (s.node x) n (fun h => (x, e, h) ∈ (s.put e n).hellos)) :
    Handshake (s.put e n) := by
  have halike : SameEnd n ((s.put e n).node e) := by
    rw [put_self]
    exact ⟨rfl, rfl, rfl, rfl⟩
  have hother : ∀ x ≠ e, SameEnd (s.node x) ((s.put e n).node x) := fun x hx => by
    rw [put_other hx]
    exact ⟨rfl, rfl, rfl, rfl⟩
  refine ⟨fun x => ?_, fun a b => ?_, fun a b hab => ?_⟩
  · by_cases hx : x = e
    · subst hx
      rw [halike.boot, hboot]
      exact hs.booted x
    · rw [put_other hx]
      exact hs.booted x
  · by_cases ha : a = e
    · subst ha
      rw [halike.died]
      exact hdied b
    · rw [put_other ha]
      exact (hs.died a b).trans (Nat.le_succ _)
  · by_cases ha : a = e
    · subst ha
      exact (hsides b hab.symm).1.congr halike (hother b hab.symm)
    · by_cases hb : b = e
      · subst hb
        exact (hsides a ha).2.congr (hother a ha) halike
      · refine ((hs.side a b hab).congr (hother a ha) (hother b hb)).mono fun h hh => ?_
        exact (mem_put_other ha).mp hh

theorem handshake_init (d : Setup) : Handshake d.init where
  booted := d.drawn
  died _ _ := Nat.le_refl 0
  side a b _ :=
    { sender := fun h hh => absurd hh List.not_mem_nil
      acked_of_session := fun hsome => absurd rfl hsome
      known_of_acked := fun hacked => by cases hacked
      drawn := List.mem_cons_self
      echo := fun h hh => absurd hh List.not_mem_nil
      echoed := fun h hh => absurd hh List.not_mem_nil
      confirmed := fun hacked => by cases hacked
      later := fun k hk => by cases hk
      present := fun hsome => absurd rfl hsome }

theorem Handshake.reboot {s : Net} (hs : Handshake s) {e : Endpoint} {boot : Nat}
    (hquiet : ∀ m ∈ s.hellos, m.1 ≠ e) (hfresh : s.Fresh e boot) : Handshake (s.reboot e boot) := by
  have hself : (s.reboot e boot).node e = (s.node e).restart (s.clock + 1) boot :=
    Function.update_self ..
  have hother : ∀ x ≠ e, (s.reboot e boot).node x = s.node x := fun x hx =>
    Function.update_of_ne hx ..
  refine ⟨fun x => ?_, fun a b => ?_, fun a b hab => ?_⟩
  · by_cases hx : x = e
    · rw [hx, hself]
      exact hfresh.1
    · rw [hother x hx]
      exact hs.booted x
  · by_cases ha : a = e
    · rw [ha, hself]
      simp only [restart]
      split
      · exact Nat.le_refl _
      · exact (hs.died e b).trans (Nat.le_succ _)
    · rw [hother a ha]
      exact (hs.died a b).trans (Nat.le_succ _)
  · by_cases ha : a = e
    · subst ha
      rw [hself, hother b hab.symm]
      exact (hs.side b a hab.symm).near_restart hfresh.1 hfresh.2 fun h hh => hquiet _ hh rfl
    · by_cases hb : b = e
      · subst hb
        rw [hself, hother a ha]
        exact (hs.side a b hab).far_restart hfresh.2
      · rw [hother a ha, hother b hb]
        exact hs.side a b hab

/-- A move of the node that acts keeps both sides of each of its pairs. -/
theorem Handshake.move {s : Net} {e : Endpoint} {t : Input} {n n' : RpcNode}
    (hin : Inside Settled s e t n) (hs : Handshake s) (hn : Handshake (s.put e n))
    (hmove : Move t n n') : Handshake (s.put e n') := by
  refine hs.put (hmove.sameRun.boot.trans hin.boot_eq) (fun x => ?_) fun x hx => ?_
  · -- What is destroyed now is destroyed in this step.
    have hbefore : n.died x ≤ s.clock + 1 := by
      have h := hn.died e x
      rw [put_self] at h
      exact h
    cases hmove.turn x with
    | same now died => exact died ▸ hbefore
    | told h trigger session known gone acked kept died => exact died ▸ hbefore
    | created h trigger none_ acked known now died => exact died ▸ hbefore
    | forgot none_ now died => exact died ▸ hbefore
    | dropped why now died =>
      rw [died]
      split
      · exact hin.stamp_eq.le
      · exact hbefore
  · rcases hn.sides hx with ⟨hside, hback⟩
    -- The greeting that is handled is still in flight, so the other side speaks of it.
    have hheard : ∀ h, t = .hello x h → Heard e n (s.node x) h := by
      intro h ht
      have hflight : (x, e, h) ∈ (s.put e n).hellos := (mem_put_other hx).mpr (hin.heard ht)
      exact ⟨hback.sender h hflight, hs.booted x, hback.echoed h hflight⟩
    have hverdict : t = .peerDead x → (n.peer x).session ≠ none →
        ((s.node x).peer e).session = none := by
      intro ht hsome
      rcases hin.verdict ht with ⟨env, hnone | hnone⟩
      · rcases hin.begun with ⟨_, _, _, _, hpath⟩
        exact absurd (no_session_of_moves hpath (by simp [ht]) hnone) hsome
      · exact hnone
    have hstamp : (s.node x).died e < n.env.stamp := by
      rw [hin.stamp_eq]
      exact Nat.lt_succ_of_le (hs.died x e)
    refine ⟨hside.near hback hmove hheard hverdict fun h hh => ?_,
      (hback.far hside hmove hheard hstamp).mono fun h hh => ?_⟩
    · rcases mem_put_self.mp hh with hold | hnew
      · exact Or.inl (mem_put_self.mpr (Or.inl hold))
      · rcases hmove.hellos_cases hnew with hold | hnew
        · exact Or.inl (mem_put_self.mpr (Or.inr hold))
        · exact Or.inr hnew
    · exact (mem_put_other hx).mpr ((mem_put_other hx).mp hh)

theorem handshake_of_run {d : Setup} {acts : List Act} {s : Net} (hrun : d.init.exec acts = some s)
    (hK : d.init.Meets Settled acts) : Handshake s := by
  refine net_invariant (handshake_init d) (fun s hs fs hsub _ h => ?_)
    (fun s e boot _ h hK hfresh => h.reboot hK hfresh) (fun s e env htidy h hstamp => ?_)
    (fun s e t n n' hin hs hn hmove => hs.move hin hn hmove) hrun hK
  · exact { h with side := fun a b hab => (h.side a b hab).mono fun m hm => hsub hm }
  · -- Nothing has been sent yet, and only the environment is new.
    have hsame : SameEnd (s.node e) { s.node e with env } := ⟨rfl, rfl, rfl, rfl⟩
    have hquiet : ∀ x y m, (x, y, m) ∈ (s.put e { s.node e with env }).hellos →
        (x, y, m) ∈ s.hellos := by
      intro x y m hm
      simpa [Net.put, (htidy e).1] using hm
    refine h.put rfl (fun x => (h.died e x).trans (Nat.le_succ _)) fun x hx => ⟨?_, ?_⟩
    · exact ((h.side e x hx.symm).congr hsame ⟨rfl, rfl, rfl, rfl⟩).mono fun m hm => hquiet _ _ m hm
    · exact ((h.side x e hx).congr ⟨rfl, rfl, rfl, rfl⟩ hsame).mono fun m hm => hquiet _ _ m hm

/-! ### The property -/

/-- If both ends are established, each session is younger than the last one that the other
    end has destroyed. -/
def Paired (s : Net) (a b : Endpoint) : Prop :=
  ((s.node a).peer b).established = true → ((s.node b).peer a).established = true →
    (∀ k ∈ ((s.node b).peer a).session, (s.node a).died b < k) ∧
      ∀ k ∈ ((s.node a).peer b).session, (s.node b).died a < k

instance (s : Net) (a b : Endpoint) : Decidable (Paired s a b) :=
  inferInstanceAs (Decidable (_ → _))

/-- No greeting and no acknowledgement is in flight. -/
def Quiet (s : Net) : Prop :=
  s.hellos = []

instance (s : Net) : Decidable (Quiet s) :=
  inferInstanceAs (Decidable (_ = _))

/-- Sessions at both ends know the present boots of each other. -/
theorem Handshake.boots_known {s : Net} (hs : Handshake s) {a b : Endpoint} (hab : a ≠ b)
    (ha : ((s.node a).peer b).session ≠ none) (hb : ((s.node b).peer a).session ≠ none) :
    ((s.node b).peer a).remoteBoot = (s.node a).boot := by
  have hside := hs.side a b hab
  have hback := hs.side b a hab.symm
  rcases hside.present ha hb with hknown | hknown
  · -- This end knows the other's boot and was confirmed, so the other has not forgotten this one.
    have hacked := hback.acked_of_session hb
    rcases hback.confirmed (hside.acked_of_session ha) hknown with hzero | hknown
    · exact absurd hzero (hback.known_of_acked hacked)
    · exact hknown
  · exact hknown

/-- In every state of a run in which verdicts and restarts are settled, the sessions of any two
    nodes are paired. -/
theorem sessions_paired (d : Setup) (acts : List Act) (s : Net) (hrun : d.init.exec acts = some s)
    (hK : d.init.Meets Settled acts) (a b : Endpoint) (hab : a ≠ b) : Paired s a b := by
  have hs := handshake_of_run hrun hK
  intro ha hb
  simp only [Peer.established, Bool.and_eq_true, Option.isSome_iff_ne_none] at ha hb
  refine ⟨fun k hk => ?_, fun k hk => ?_⟩
  · exact (hs.side a b hab).later k hk (hs.boots_known hab ha.2 hb.2)
  · exact (hs.side b a hab.symm).later k hk (hs.boots_known hab.symm hb.2 ha.2)

theorem sessions_paired_restart : ∃ s,
    Three.setup.init.exec (Three.greets Three.a Three.b ++ .restart Three.a 44 ::
      Three.greets Three.a Three.b) = some s ∧
    ((s.node Three.a).peer Three.b).established = true ∧
    ((s.node Three.b).peer Three.a).established = true ∧ Paired s Three.a Three.b := by
  have hshows : ∃ s, Three.setup.init.exec (Three.greets Three.a Three.b ++ .restart Three.a 44 ::
      Three.greets Three.a Three.b) = some s ∧
      ((s.node Three.a).peer Three.b).established = true ∧
      ((s.node Three.b).peer Three.a).established = true := net_shows (by decide +kernel)
  rcases hshows with ⟨s, hrun, ha, hb⟩
  have hpaired :=
    sessions_paired Three.setup _ s hrun (by decide +kernel) Three.a Three.b (by decide)
  exact ⟨s, hrun, ha, hb, hpaired⟩

/-- Two nodes greet each other, the first declares the second dead, and calls it again. The
    second has not restarted, so it keeps its session. -/
def verdictRun : List Act :=
  Three.greets Three.a Three.b ++ [.peerDead Three.a {} Three.b, Three.call Three.a Three.b] ++
    Three.takes 0 ++ Three.takes 0

/-- A copy of the first greeting arrives when its sender has restarted and has greeted again. -/
def lateRun : List Act :=
  [Three.call Three.a Three.b, .hello 0 {}] ++ Three.takes 1 ++ Three.takes 1 ++ Three.takes 1 ++
    [.restart Three.a 44, Three.call Three.a Three.b] ++
    Three.takes 1 ++ Three.takes 1 ++ Three.takes 1 ++ Three.takes 1 ++
    Three.takes 0 ++ Three.takes 0 ++ Three.takes 0 ++ Three.takes 0

/-- After either run nothing is in flight, both ends are established, and one session is older
    than what the other end has destroyed. -/
theorem sessions_unpaired :
    (∃ s, Three.setup.init.exec verdictRun = some s ∧ Quiet s ∧ ¬ Paired s Three.a Three.b) ∧
      ∃ s, Three.setup.init.exec lateRun = some s ∧ Quiet s ∧ ¬ Paired s Three.a Three.b :=
  ⟨net_shows (by decide +kernel), net_shows (by decide +kernel)⟩

end Tautq.Rpc
