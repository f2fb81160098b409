import Tautq.Theory.Tokens

/-!
# What a Move Does to Leases

A lease lives in four places: the stored copy, the commit that is not decided
yet, the visibility deadline, and the history of grants, expiries and nacks.
`LeaseStep` says how one move changes them together. Most moves change none of
them, or write a record and nothing else; the others are the steps of a lease's
life.

A store whose append failed has two copies of a job: the one in the table and
the one the next open will find, where the record stayed in the file. A
statement that is to survive a restart is about both (`Node.copy`).

## Main definitions

* `Node.copy`: A copy the node has, or will have after a restart.
* `Event.marks`: The events in the life of a lease.
* `Beside`: Nothing in the life of a lease happened.
* `LeaseStep`: What a move does to leases.

## Theorems

* `copy_append`: The copies after a record is written.
* `Move.lease_step`: Every move is one of the steps.
-/

namespace Tautq

open Status

/-- A copy the node has, or will have after a restart. -/
def Node.copy (n : Node) (id : JobId) (l : Job) : Prop :=
  n.find id = some l ∨ (replay n.store.log).find id = some l

theorem Node.copy_congr {m m' : Node} (h : m'.store = m.store) (id : JobId) (l : Job) :
    m'.copy id l ↔ m.copy id l := by
  rw [Node.copy, Node.find_congr h, h, Node.copy]

theorem Node.copy.held {n : Node} {id : JobId} {l : Job} (h : n.copy id l) :
    Held n.store.log id l := by
  rcases h with h | h
  · exact Node.held_of_find h
  · exact held_last h

/-- The events in the life of a lease. -/
def Event.marks : Event → Bool
  | .granted _ _ _ => true
  | .expired _ _ _ => true
  | .nacked _ _ _ _ => true
  | _ => false

theorem Event.marks_of_idle {e : Event} (h : e.idle) : e.marks = false := by
  cases e with
  | granted | expired | nacked => cases h
  | _ => rfl

/-- Nothing in the life of a lease happened: no commit was begun, no deadline set, no
    event told. -/
structure Beside (m m' : Node) : Prop where
  leasing : m'.leasing.Sublist m.leasing
  armed : ∀ id d, m'.leaseDeadline.lookup id = some d → m.leaseDeadline.lookup id = some d
  events : ∃ pre, m'.events = pre ++ m.events ∧ ∀ ev ∈ pre, ev.marks = false
  now : m.now ≤ m'.now

namespace Beside

variable {m m' : Node}

theorem of_eq (hq : m'.qstates = m.qstates) (hd : m'.leaseDeadline = m.leaseDeadline)
    (he : m'.events = m.events) (hn : m'.now = m.now) : Beside m m' where
  leasing := by
    rw [Node.leasing, hq, Node.leasing]
  armed _ _ h := hd ▸ h
  events := ⟨[], he, by simp⟩
  now := hn.ge

theorem refl (m : Node) : Beside m m :=
  of_eq rfl rfl rfl rfl

/-- Where one commit is recounted. -/
theorem recount {q : Nat} {s : QState} (s' : QState) (hs : m.qstates[q]? = some s)
    (hdone : s'.done = s.done) (hfired : s.fired = true → s'.fired = true)
    (hq : m'.qstates = m.qstates.set q s') (hd : m'.leaseDeadline = m.leaseDeadline)
    (he : ∃ pre, m'.events = pre ++ m.events ∧ ∀ ev ∈ pre, ev.marks = false) (hn : m'.now = m.now) :
    Beside m m' where
  leasing := leasing_recount s' hs hdone hfired hq
  armed _ _ h := hd ▸ h
  events := he
  now := hn.ge

theorem emit (h : Beside m m') (ev : Event) (hev : ev.marks = false) : Beside m (m'.emit ev) where
  leasing := h.leasing
  armed := h.armed
  events := by
    rcases h.events with ⟨pre, hpre, hmarks⟩
    refine ⟨ev :: pre, by rw [Node.emit, hpre, List.cons_append], fun x hx => ?_⟩
    rcases List.mem_cons.mp hx with rfl | hx
    exacts [hev, hmarks x hx]
  now := h.now

theorem respond (h : Beside m m') (ctx : ReqCtx) (st : Status) (body : Reply) :
    Beside m (m'.respond ctx st body) :=
  ⟨h.leasing, h.armed, h.events, h.now⟩

theorem submitCb (h : Beside m m') (cb : SubmitCb) (st : Status) (id : JobId) :
    Beside m (m'.submitCb cb st id) := by
  cases cb with
  | client key => exact h.emit _ rfl
  | reply ctx => exact h.respond ctx st _

theorem ackCb (h : Beside m m') (cb : AckCb) (id : JobId) (success : Bool) (st : Status) :
    Beside m (m'.ackCb cb id success st) := by
  cases cb with
  | client => exact h.emit _ rfl
  | reply ctx => exact (h.emit _ rfl).respond ctx st _

/-- Where a deadline is dropped. -/
theorem disarm (m : Node) (id : JobId) :
    Beside m { m with leaseDeadline := m.leaseDeadline.erase id } where
  leasing := .refl _
  armed _ _ h := (lookup_erase_cases h).2
  events := ⟨[], rfl, by simp⟩
  now := le_refl _

end Beside

/-- What a move does to leases. -/
inductive LeaseStep (t : Trigger) (m₀ m m' : Node) : Prop where
  | calm (table : m'.store.table = m.store.table) (log : m'.store.log = m.store.log)
      (beside : Beside m m')
  | write (r : Record) (writes : Writes t m₀ m r) (starts : Starts t m₀ m r)
      (open_ : m.store.failed = false)
      (table : m'.store.table = m.store.table ∨ m'.store.table = m.store.table.apply r)
      (log : m'.store.log = m.store.log ++ [r]) (beside : Beside m m')
  | lease (id : JobId) (l : Job) (worker : Nat) (found : m.find id = some l)
      (owned : l.owner = m.self) (trigger : t = .input (.lease worker)) (ready : l.state = .ready)
      (first : m.store = m₀.store) (open_ : m.store.failed = false)
      (stored : m'.store = m.store.append (.lease id l.epoch ((l.leaseSeq + 1) % 2 ^ 32) worker))
      (leasing : m'.leasing = m.leasing ++ [(id, l.epoch, (l.leaseSeq + 1) % 2 ^ 32)])
      (deadlines : m'.leaseDeadline = m.leaseDeadline) (events : m'.events = m.events)
      (now : m'.now = m.now)
  | alone (id : JobId) (l : Job) (worker : Nat) (found : m.find id = some l)
      (owned : l.owner = m.self) (trigger : t = .input (.lease worker)) (ready : l.state = .ready)
      (first : m.store = m₀.store) (open_ : m.store.failed = false)
      (stored : m'.store = m.store.append (.lease id l.epoch ((l.leaseSeq + 1) % 2 ^ 32) worker))
      (leasing : m'.leasing = m.leasing)
      (deadlines : m'.leaseDeadline = m.leaseDeadline.insert id (m.now + l.visibilityMs))
      (events : m'.events = .granted (.lease id l.epoch ((l.leaseSeq + 1) % 2 ^ 32) worker)
        (Node.grantOf id ((Record.lease id l.epoch ((l.leaseSeq + 1) % 2 ^ 32) worker).on l))
        m.now ::
          m.events) (now : m'.now = m.now)
  | grant (id : JobId) (j : Job) (epoch leaseSeq worker : Nat) (ev : Event)
      (found : m.find id = some j) (stored : m'.store = m.store)
      (leasing : m.leasing.Perm ((id, epoch, leaseSeq) :: m'.leasing))
      (deadlines : m'.leaseDeadline = m.leaseDeadline.insert id (m.now + j.visibilityMs))
      (unmarked : ev.marks = false)
      (events : m'.events = .granted (.lease id epoch leaseSeq worker) (Node.grantOf id j) m.now ::
        ev :: m.events) (now : m'.now = m.now)
  | unlease (id : JobId) (l : Job) (epoch leaseSeq : Nat) (found : m.find id = some l)
      (attempt : Attempt m.store (.expire id l.epoch l.leaseSeq) m'.store)
      (leasing : m.leasing.Perm ((id, epoch, leaseSeq) :: m'.leasing)) (beside : Beside m m')
  | expire (id : JobId) (j : Job) (deadline : Time)
      (armed : m.leaseDeadline.lookup id = some deadline) (due : deadline ≤ m.now)
      (found : m.find id = some j) (leased : j.state = .leased) (owned : j.owner = m.self)
      (stored : m'.store = m.store) (leasing : m'.leasing = m.leasing)
      (deadlines : m'.leaseDeadline = m.leaseDeadline.erase id)
      (events : m'.events = .expired id j.leaseSeq m.now :: m.events) (now : m'.now = m.now)
  | nack (id : JobId) (j : Job) (epoch leaseSeq : Nat) (cb : AckCb)
      (acks : Acks t id epoch leaseSeq false cb) (found : m.find id = some j)
      (owned : j.owner = m.self) (current : Node.currentLease j epoch leaseSeq = true)
      (stored : m'.store = m.store) (leasing : m'.leasing = m.leasing)
      (deadlines : m'.leaseDeadline = m.leaseDeadline.erase id)
      (events : m'.events = .nacked id epoch leaseSeq m.now :: m.events) (now : m'.now = m.now)
  | finalize (id : JobId) (st : ClaimState) (standing : m.claims.lookup id = some st)
  | reboot (table : ∀ id, m'.find id = (replay m.store.log).find id)
      (log : m'.store.log = m.store.log) (leasing : m'.leasing = [])
      (armed : ∀ id d, m'.leaseDeadline.lookup id = some d → ∃ j, m'.find id = some j ∧
        j.state = .leased ∧ j.owner = m.self ∧ d = m.now + j.visibilityMs)
      (events : m'.events = m.events) (now : m'.now = m.now)

section Steps

variable {t : Trigger} {m₀ m m' : Node}

/-- A record that is not an expiry is never a lease given back. -/
theorem Starts.of_ne {r : Record} (h : ∀ id epoch leaseSeq, r ≠ .expire id epoch leaseSeq) :
    Starts t m₀ m r :=
  fun id epoch leaseSeq hr => absurd hr (h id epoch leaseSeq)

/-- A record that is appended, with nothing else in the life of a lease. -/
theorem LeaseStep.append {r : Record} (hw : Writes t m₀ m r) (hs : Starts t m₀ m r)
    (open_ : m.store.failed = false) (stored : m'.store = m.store.append r) (h : Beside m m') :
    LeaseStep t m₀ m m' := by
  refine .write r hw hs open_ (Or.inr ?_) ?_ h
  · rw [stored]
    rfl
  · rw [stored, m.store.log_append r open_]

/-- A transition that is begun and is not a lease adds no token. -/
theorem leasing_begin {d : DoneCb} {outstanding : Int}
    (hd : ∀ id epoch leaseSeq worker, d ≠ .lease id epoch leaseSeq worker)
    (hq : m'.qstates = m.qstates ++ [{ done := d, needed := 1, outstanding, fired := false }]) :
    m'.leasing.Sublist m.leasing := by
  have htoken : QState.token { done := d, needed := 1, outstanding, fired := false } = none := by
    cases d with
    | ignore | ack => rfl
    | lease id epoch leaseSeq worker => exact absurd rfl (hd id epoch leaseSeq worker)
  rw [Node.leasing, hq, List.filterMap_append, List.filterMap_cons_none htoken, List.filterMap_nil,
    List.append_nil, Node.leasing]

theorem Move.lease_step (h : Move t m₀ m m') : LeaseStep t m₀ m m' := by
  cases h with
  | quiet _ h =>
    exact .calm (by rw [h.store]) (by rw [h.store])
      (.of_eq h.qstates h.leaseDeadline h.events h.now)
  | advance d =>
    exact .calm rfl rfl ⟨.refl _, fun _ _ h => h, ⟨[], rfl, by simp⟩, Nat.le_add_right _ _⟩
  | note e idle => exact .calm rfl rfl ((Beside.refl m).emit e (Event.marks_of_idle idle))
  | drained => exact .calm rfl rfl ((Beside.refl m).emit .drained rfl)
  | serve ctx r body serves open_ =>
    refine .append (.serve ctx r body serves) (fun _ _ _ _ => Or.inl ⟨ctx, body, serves⟩) open_
      rfl ?_
    exact .of_eq rfl rfl rfl rfl
  | adopt r writes full open_ =>
    rcases full with ⟨j, rfl⟩
    exact .append writes (.of_ne (by simp)) open_ rfl (.of_eq rfl rfl rfl rfl)
  | spoil r limbo writes other kept h open_ =>
    rcases h with rfl | rfl
    · refine .calm rfl ?_ (.of_eq rfl rfl rfl rfl)
      exact (m.store.log_fail none open_).trans (List.append_nil _)
    · exact .write r writes kept open_ (Or.inl rfl) (m.store.log_fail (some r) open_)
        (.of_eq rfl rfl rfl rfl)
  | demote id j found other =>
    exact .calm rfl rfl ⟨.refl _, (Beside.disarm m id).armed, ⟨[], rfl, by simp⟩, le_refl _⟩
  | mint p cb writes submits open_ =>
    exact .append writes (.of_ne (by simp)) open_ rfl (.of_eq rfl rfl rfl rfl)
  | mintAlone p cb ps writes submits open_ =>
    refine .append writes (.of_ne (by simp)) open_ (submitCb_store _ _ _) (Beside.submitCb ?_ _ _ _)
    exact .of_eq rfl rfl rfl rfl
  | mintFail p s writes h failed =>
    cases h with
    | durable open_ => exact absurd (open_.symm.trans failed) (by simp)
    | lost open_ =>
      refine .calm rfl ?_ (.of_eq rfl rfl rfl rfl)
      exact (m.store.log_fail none open_).trans (List.append_nil _)
    | kept open_ =>
      exact .write _ writes (.of_ne (by simp)) open_ (Or.inl rfl) (m.store.log_fail _ open_)
        (.of_eq rfl rfl rfl rfl)
    | refused => exact .calm rfl rfl (.of_eq rfl rfl rfl rfl)
  | duplicate | refuse =>
    exact .calm (by rw [submitCb_store]) (by rw [submitCb_store]) (Beside.submitCb (.refl m) _ _ _)
  | relay key st body answers => exact .calm rfl rfl ((Beside.refl m).emit _ rfl)
  | submitted id ps st =>
    refine .calm (by rw [submitCb_store]) (by rw [submitCb_store]) (Beside.submitCb ?_ _ _ _)
    exact .of_eq rfl rfl rfl rfl
  | begin_ id l r d found owned begins open_ peers =>
    have hstarts := begins.starts found owned
    have hw : Writes t m₀ m r := .begin_ id l r d found owned begins
    cases begins with
    | lease worker trigger ready within first =>
      exact .lease id l worker found owned trigger ready first open_ rfl (List.filterMap_append) rfl
        rfl rfl
    | exhausted | parked | expired | nacked | done =>
      refine .append hw hstarts open_ rfl ⟨?_, fun _ _ h => h, ⟨[], rfl, by simp⟩, le_refl _⟩
      exact leasing_begin (by simp) rfl
  | beginAlone id l r found owned begins open_ peers =>
    exact .append (.begin_ id l r _ found owned begins) (begins.starts found owned) open_ rfl
      (.of_eq rfl rfl rfl rfl)
  | grantAlone id l r epoch leaseSeq worker found owned begins open_ peers =>
    cases begins with
    | lease _ trigger ready within first =>
      exact .alone id l worker found owned trigger ready first open_ rfl rfl rfl rfl rfl
  | ackAlone id l r cb found owned begins open_ peers =>
    refine .append (.begin_ id l r _ found owned begins) (begins.starts found owned) open_
      (ackCb_store _ _ _ _) (Beside.ackCb ?_ _ _ _ _)
    exact .of_eq rfl rfl rfl rfl
  | miss q s fired state h =>
    exact .calm rfl rfl (.recount { s with outstanding := s.outstanding - 1, fired }
      state rfl h rfl rfl ⟨[], rfl, by simp⟩ rfl)
  | confirm id slot member r q s body answers state =>
    exact .calm rfl rfl (.recount
      { s with outstanding := s.outstanding - 1, needed := s.needed - 1, fired := true } state rfl
      (fun _ => rfl) rfl rfl ⟨[.applyAcked member r], rfl, by simp [Event.marks]⟩ rfl)
  | grant id id' slot member r q s body epoch leaseSeq worker j answers state pending
      isLease found =>
    refine .grant id' j epoch leaseSeq worker (.applyAcked member r) found rfl
      (filterMap_set_perm _ state ?_ rfl) rfl rfl rfl rfl
    rw [QState.token, pending, isLease]
  | completed id id' slot member r q s body cb answers state =>
    refine .calm (by rw [ackCb_store]) (by rw [ackCb_store]) (Beside.ackCb ?_ _ _ _ _)
    exact .recount
      { s with outstanding := s.outstanding - 1, needed := s.needed - 1, fired := true } state rfl
      (fun _ => rfl) rfl rfl ⟨[.applyAcked member r], rfl, by simp [Event.marks]⟩ rfl
  | unlease id l q s epoch leaseSeq worker store found state pending isLease attempt =>
    refine .unlease id l epoch leaseSeq found attempt (filterMap_set_perm _ state ?_ rfl) ?_
    · rw [QState.token, pending, isLease]
    · exact .recount { s with outstanding := s.outstanding - 1, fired := true } state rfl
        (fun _ => rfl) rfl rfl ⟨[], rfl, by simp⟩ rfl
  | disarm id => exact .calm rfl rfl (.disarm m id)
  | expire id j deadline armed due found leased owned =>
    exact .expire id j deadline armed due found leased owned rfl rfl rfl rfl rfl
  | nack id j epoch leaseSeq cb acks found owned current first =>
    exact .nack id j epoch leaseSeq cb acks found owned current rfl rfl rfl rfl rfl
  | complete id j epoch leaseSeq =>
    exact .calm rfl rfl ((Beside.disarm m id).emit (.doneStarted id epoch leaseSeq) rfl)
  | ackDone | ackPlain =>
    exact .calm (by rw [ackCb_store]) (by rw [ackCb_store]) (Beside.ackCb (.refl m) _ _ _ _)
  | seize id l found other active unclaimed open_ trigger admitting =>
    exact .append (.seize id l found other active unclaimed trigger admitting)
      (.of_ne (by simp)) open_ rfl (.of_eq rfl rfl rfl rfl)
  | finalize id st l j s deadlines standing => exact .finalize id st standing
  | reboot boot repair deadlines trigger first unconfirmed armed =>
    exact .reboot m.store.find_reopen m.store.log_reopen rfl armed rfl rfl
  | compact d =>
    exact .calm (m.store.compact_eq d).1 (m.store.log_compact d) (.of_eq rfl rfl rfl rfl)
  | _ => exact .calm rfl rfl (.of_eq rfl rfl rfl rfl)

/-- The copies after a record is written, in the table or for the next open only. -/
theorem copy_append {r : Record} {id : JobId} {l' : Job} (open_ : m.store.failed = false)
    (table : m'.store.table = m.store.table ∨ m'.store.table = m.store.table.apply r)
    (log : m'.store.log = m.store.log ++ [r]) (h : m'.copy id l') :
    m.copy id l' ∨ (r.jobId = id ∧ r.effect (m.find id) = some l') := by
  have hnew : (m.store.table.apply r).find id = some l' →
      m.copy id l' ∨ (r.jobId = id ∧ r.effect (m.find id) = some l') := by
    intro hl
    rw [Table.find_apply] at hl
    by_cases hid : r.jobId = id
    · rw [if_pos hid] at hl
      exact Or.inr ⟨hid, hl⟩
    · rw [if_neg hid] at hl
      exact Or.inl (Or.inl hl)
  rcases h with hl | hl
  · rw [Node.find] at hl
    rcases table with ht | ht
    · exact Or.inl (Or.inl (by rw [Node.find, ← ht]; exact hl))
    · exact hnew (ht ▸ hl)
  · rw [log, replay_snoc, Table.find_apply_congr _ (Store.find_log open_)] at hl
    exact hnew hl

end Steps

end Tautq
