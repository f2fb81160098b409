import Tautq.Safety.DoneAbsolute

/-!
# A Confirmed Completion Is on a Majority

An owner tells a worker that its completion stands when one replica has
applied the completion, or, asked again, when the job has no repair entry any
more. The entry is dropped when every slot was confirmed, but a confirmation
is any positive reply for the slot: late replies to the submit confirm the
slots of a job that has been completed since, and the retried ack is answered
from that (`acked_alone`).

The condition is that a reply which confirms a slot of a done copy answers a
completion, and that done copies are spared. Then a done copy of the owner has
a fresh repair entry or another node has the job done as well (`Confirmed`),
and so every positive answer stands on two nodes.

## Main definitions

* `Request.completion`: The job a request hands over as done.
* `AckConfirmed`: The condition.
* `Boasts`: A node that hands a job over as done, or confirms it, has it done.
* `Confirmed`: What holds of the owner's repair entries.

## Theorems

* `acked_alone`: A positive answer for a completion no replica has.
* `acked_majority`: Under the condition there is a second done copy.
-/

namespace Tautq

open Status Cluster

/-- The job a request hands over as done. -/
def Request.completion : Request → Option JobId
  | .replicate j => if j.state = .done then some j.id else none
  | .apply (.done id _ _) => some id
  | _ => none

/-- The job whose slot a response confirms, by the call it finishes, and the
    request it answers. -/
def Trigger.confirms (t : Trigger) (n : Node) : Option (JobId × Request) :=
  match t with
  | .packet (.response _ _ _ reqId asked st _) =>
    match n.calls.lookup reqId with
    | some { cont := .replicate id _, .. } =>
      if st = kCreated ∨ st = kDuplicate then some (id, asked) else none
    | some { cont := .apply id _ _ _ _, .. } => if st = kCreated then some (id, asked) else none
    | _ => none
  | _ => none

/-- What confirms a slot of a done copy answers a completion of the job. -/
def ConfirmsDone : Cond := fun c e t =>
  ∀ x ∈ t.confirms (c.node e), ∀ l ∈ (c.node e).find x.1, l.state = .done →
    x.2.completion = some x.1

/-- Done copies are spared, and confirmed only by what answers a completion. -/
def AckConfirmed : Cond := fun c e t =>
  SparesDone c e t ∧ ConfirmsDone c e t

instance (c : Cluster) (e : Endpoint) (t : Trigger) : Decidable (AckConfirmed c e t) :=
  have : Decidable (ConfirmsDone c e t) :=
    inferInstanceAs (Decidable (∀ x ∈ t.confirms (c.node e), ∀ l ∈ (c.node e).find x.1,
      l.state = .done → x.2.completion = some x.1))
  inferInstanceAs (Decidable (SparesDone c e t ∧ ConfirmsDone c e t))

/-! ### A completion that is confirmed too early -/

namespace Trio

/-- The replies to the submit arrive after the job was completed; the completion
    itself reaches no replica. -/
def lateReplies : List Act :=
  unleased ++
    [.does a (.lease 7), .takes a 2, .takes b 1, .does a (.ack job 1 1 true), .takes b 0,
      .takes c 0, .does a (.ack job 1 1 true)]

end Trio

/-- The worker is told that its completion stands, and no other node has it. -/
theorem acked_alone : ∃ c, Trio.cluster.init.exec Trio.lateReplies = some c ∧
    .ownerAcked Trio.job true kCreated ∈ (c.node Trio.a).events ∧
    ((c.node Trio.a).find Trio.job).map (fun j => j.replicas.pinned) =
    some [Trio.a, Trio.b, Trio.c] ∧ ((c.node Trio.b).find Trio.job).map Job.state = some .leased ∧
    ((c.node Trio.c).find Trio.job).map Job.state = some .ready :=
  run_shows (by decide +kernel)

/-! ### Who has a job done -/

/-- A node that hands a job over as done, shows it as done, confirms a completion
    of it or waits for one to be confirmed has it done. -/
structure Boasts (n : Node) : Prop where
  sent : ∀ dst boot reqId body id, .request n.self dst boot reqId body ∈ n.outbox →
    body.completion = some id → n.store.table.isDone id
  shown : ∀ dst boot reqId asked st j,
    .response n.self dst boot reqId asked st (.job j) ∈ n.outbox →
    j.state = .done → n.store.table.isDone j.id
  stored : ∀ dst boot reqId asked body id,
    .response n.self dst boot reqId asked kCreated body ∈ n.outbox →
      asked.completion = some id → n.store.table.isDone id
  acks : ∀ s ∈ n.qstates, ∀ id cb, s.done = .ack id cb → n.store.table.isDone id

/-- Among copies that are not fenced off, a done one is never left behind. -/
theorem jobAdvances_of_done {l r : Job} (he : l.epoch ≤ r.epoch) (hr : r.state = .done)
    (hl : l.state ≠ .done) : jobAdvances l r = true := by
  unfold jobAdvances
  by_cases heq : r.epoch = l.epoch
  · simp [heq, hr, hl]
  · rw [if_pos heq, decide_eq_true_eq]
    omega

section Steps

variable {t : Trigger} {m₀ m m' : Node}

theorem Request.completion_cases {body : Request} {id : JobId} (h : body.completion = some id) :
    (∃ j, body = .replicate j ∧ j.state = .done ∧ j.id = id) ∨
      ∃ epoch leaseSeq, body = .apply (.done id epoch leaseSeq) := by
  unfold Request.completion at h
  split at h
  · rename_i j
    split at h
    · rename_i hdone
      exact Or.inl ⟨j, rfl, hdone, Option.some.inj h⟩
    · cases h
  · rename_i id' epoch leaseSeq
    rw [Option.some.inj h]
    exact Or.inr ⟨epoch, leaseSeq, rfl⟩
  · cases h

/-- Serving a completion leaves the job done. -/
theorem Serves.isDone {ctx : ReqCtx} {r : Record} {body : Reply} {id : JobId}
    (h : Serves t m₀ m ctx r body) (hc : ctx.asked.completion = some id) :
    (m.store.table.apply r).isDone id := by
  rcases Request.completion_cases hc with ⟨j, hasked, hdone, hid⟩ | ⟨epoch, leaseSeq, hasked⟩
  · cases h with
    | copy j' trigger asked unfenced =>
      have hj : j' = j := Request.replicate.inj (asked.symm.trans hasked)
      subst hj
      have hself := m.store.table.find_apply_self (.replicate j')
      change (m.store.table.apply (.replicate j')).find j'.id = _ at hself
      rw [hid] at hself unfenced
      cases hfind : m.store.table.find id with
      | none =>
        rw [show (Record.replicate j').jobId = id from hid, hfind] at hself
        exact ⟨j', hself, hdone⟩
      | some l =>
        rw [show (Record.replicate j').jobId = id from hid, hfind] at hself
        refine ⟨_, hself, ?_⟩
        by_cases hl : l.state = .done
        · rcases (Record.replicate j').on_full l rfl with hon | hon
          · rw [hon]
            exact hdone
          · rw [hon]
            exact hl
        · rw [Record.on, if_pos (jobAdvances_of_done (unfenced l hfind) hdone hl)]
          exact hdone
    | apply r' epoch l trigger asked => rw [asked] at hasked; cases hasked
    | claim id' proposed l trigger asked => rw [asked] at hasked; cases hasked
  · cases h with
    | copy j' trigger asked => rw [asked] at hasked; cases hasked
    | apply r' epoch' l trigger asked fence found unfenced =>
      have hr : r = .done id epoch leaseSeq := Request.apply.inj (asked.symm.trans hasked)
      subst hr
      have he : epoch = epoch' := Option.some.inj fence
      exact Table.isDone_complete leaseSeq found (he ▸ unfenced)
    | claim id' proposed l trigger asked => rw [asked] at hasked; cases hasked

/-- A request that hands a job over as done is sent by a node that has it done. -/
theorem Asks.completion {dst : Endpoint} {body : Request} {k : Cont} {id : JobId} (hm : Boasts m)
    (h : Asks t m dst body k) (hc : body.completion = some id) : m.store.table.isDone id := by
  rcases Request.completion_cases hc with ⟨j, rfl, hdone, hid⟩ | ⟨epoch, leaseSeq, rfl⟩
  · cases h with
    | replicate id' slot _ _ found =>
      have hid' := m.store.find_id found
      exact ⟨j, by rw [← hid, hid']; exact found, hdone⟩
  · cases h with
    | apply id' slot _ j _ q s found peer committed state carries =>
      -- The counters of a completion belong to an ack.
      have hmem := List.mem_of_getElem? state
      cases hd : s.done with
      | ignore =>
        rw [hd] at carries
        rcases carries with ⟨_, _, _, h⟩ | ⟨_, _, h⟩ <;> cases h
      | lease =>
        rw [hd] at carries
        cases carries
      | ack id'' cb =>
        rw [hd] at carries
        rcases carries with ⟨_, _, h⟩
        cases h
        exact hm.acks s hmem id cb hd

/-- A positive answer to a completion is given by a node that has the job done. -/
theorem Sends.stored {w : World} {src dst : Endpoint} {boot reqId : Nat} {asked : Request}
    {body : Reply} {id : JobId} (hm : Wire w m)
    (h : Sends t m₀ m m' (.response src dst boot reqId asked kCreated body))
    (hc : asked.completion = some id) : m'.store.table.isDone id := by
  have hasked : (∃ j, asked = .replicate j) ∨ ∃ r, asked = .apply r := by
    rcases Request.completion_cases hc with ⟨j, hj, _⟩ | ⟨epoch, leaseSeq, hr⟩
    · exact Or.inl ⟨j, hj⟩
    · exact Or.inr ⟨_, hr⟩
  rcases h.confirms hm hasked with ⟨ctx, r, _, ha, serves, stored⟩
  rw [stored]
  exact serves.isDone (ha ▸ hc)

end Steps

/-! ### The invariants -/

section Invariants

variable {K : Cond} {d : Deployment}

theorem boasts (hK : ∀ c e t, K c e t → SparesDone c e t) :
    Always K d (fun w => ∀ e, Boasts (w e)) := by
  refine always_of_node (Q := fun _ n => Boasts n) (fun _ h => h)
    (fun e => by constructor <;> simp [Deployment.init]) (fun {c e t m m'} hin _ hm _ hmove => ?_)
  have hwire := wire.inside hin e
  have hkept : ∀ id, m.store.table.isDone id → m'.store.table.isDone id := by
    intro id h
    have hk := hin.done_kept hK hmove e id
    rw [Function.update_self, Function.update_self] at hk
    exact hk h
  rw [Function.update_self] at hwire
  have hself := hmove.self_eq.1
  refine ⟨?_, ?_, ?_, ?_⟩
  · intro dst boot reqId body id hp hc
    rw [hself] at hp
    rcases hmove.request_cases hp with hold | ⟨_, _, _, k, hasks, _⟩
    · exact hkept id (hm.sent dst boot reqId body id hold hc)
    · exact hkept id (hasks.completion hm hc)
  · intro dst boot reqId asked st j hp hdone
    rw [hself] at hp
    rcases hmove.response_cases hp with hold | hnew
    · exact hkept j.id (hm.shown dst boot reqId asked st j hold hdone)
    · cases hnew with
      | show_ ctx id _ trigger ha found =>
        exact hkept j.id ⟨j, by rw [m.store.find_id found]; exact found, hdone⟩
      | serve ctx r _ serves => cases serves
  · intro dst boot reqId asked body id hp hc
    rw [hself] at hp
    rcases hmove.response_cases hp with hold | hnew
    · exact hkept id (hm.stored dst boot reqId asked body id hold hc)
    · exact hnew.stored hwire hc
  · intro s hs id cb hd
    rcases List.mem_iff_getElem?.mp hs with ⟨q, hq⟩
    rcases hmove.commit_cases hq with ⟨s₀, hs₀, hdone, _⟩ | ⟨id', l, r, found, _, begins, stored, _⟩
    · exact hkept id (hm.acks s₀ (List.mem_of_getElem? hs₀) id cb (hdone.symm.trans hd))
    · -- The completion has just been applied.
      rw [hd] at begins
      cases begins with
      | done epoch leaseSeq _ acks =>
        rw [stored]
        exact Table.isDone_complete l.leaseSeq found le_rfl

/-- Another node has the job done. -/
def Backed (w : World) (e : Endpoint) (id : JobId) : Prop :=
  ∃ x, x ≠ e ∧ (w x).store.table.isDone id

/-- A done copy of the owner is unconfirmed on every slot, or another node has
    the job done. -/
def Confirmed (w : World) (n : Node) : Prop :=
  ∀ id j, n.find id = some j → j.state = .done → j.owner = n.self →
    Backed w n.self id ∨ n.repair.lookup id = some 0

variable {c : Cluster} {e : Endpoint} {t : Trigger} {m : Node}

/-- Under the condition, whoever confirms a slot of a done copy has the job done. -/
theorem Inside.confirmed_done (hK : ∀ c e t, K c e t → AckConfirmed c e t)
    (hin : Inside K d c e t m)
    {id : JobId} {slot : Nat} {l : Job} (h : Confirms t (c.node e) id slot)
    (hl : (c.node e).find id = some l) (hdone : l.state = .done) :
    ∃ x, x ≠ e ∧ (c.node x).store.table.isDone id := by
  have hcond := (hK c e t hin.allowed).2
  have hsane := sane.reach hin.reach
  have hboast := (boasts (d := d) (fun c e t h => (hK c e t h).1)).reach hin.reach
  -- What the response answers: a completion, so it finishes the call of this very request.
  have hstored : ∀ src asked body, Replied c.node src e asked kCreated body →
      asked.completion = some id → (c.node src).store.table.isDone id := by
    rintro src asked body ⟨boot, reqId, hp⟩ hc
    exact (hboast src).stored e boot reqId asked body id (by rw [hsane.names]; exact hp) hc
  have hlate : ∀ asked : Request, asked.completion = some id → asked.deferred = false := by
    intro asked hc
    rcases Request.completion_cases hc with ⟨j, rfl, _⟩ | ⟨epoch, leaseSeq, rfl⟩ <;> rfl
  cases h with
  | replicate st body ok answers =>
    rcases answers with ⟨src, dst, boot, reqId, asked, call, ht, hcall, hk⟩
    have hc : asked.completion = some id := by
      refine hcond (id, asked) ?_ l hl hdone
      rcases call with ⟨peer, deadline, cont⟩
      change cont = .replicate id slot at hk
      subst hk
      simp only [ht, Trigger.confirms, hcall, if_pos ok, Option.mem_def]
    rcases hin.finished ht hcall with ⟨hrep, hfits, hexp | ⟨hdef, _⟩⟩
    · rw [hk] at hexp
      cases hexp with
      | replicate j _ peer =>
        have hst : st = kCreated := ok.resolve_right hfits.1
        exact ⟨src, (mem_peers peer).1, hstored src _ body (hst ▸ hrep) hc⟩
    · rw [hlate asked hc] at hdef
      cases hdef
  | apply member r q body answers =>
    rcases answers with ⟨src, dst, boot, reqId, asked, call, ht, hcall, hk⟩
    have hc : asked.completion = some id := by
      refine hcond (id, asked) ?_ l hl hdone
      rcases call with ⟨peer, deadline, cont⟩
      change cont = .apply id slot member r q at hk
      subst hk
      simp only [ht, Trigger.confirms, hcall, if_true, Option.mem_def]
    rcases hin.finished ht hcall with ⟨hrep, _, hexp | ⟨hdef, _⟩⟩
    · rw [hk] at hexp
      cases hexp with
      | apply _ _ _ other => exact ⟨member, other, hstored member _ body hrep hc⟩
    · rw [hlate asked hc] at hdef
      cases hdef

/-- A done copy brought by another node is done there. -/
theorem Inside.brought_done (hK : ∀ c e t, K c e t → SparesDone c e t) (hin : Inside K d c e t m)
    {j : Job} (hw : Writes t (c.node e) m (.replicate j)) (hdone : j.state = .done) :
    ∃ x, x ≠ e ∧ (c.node x).store.table.isDone j.id := by
  have hsane := sane.reach hin.reach
  have hboast := (boasts (d := d) hK).reach hin.reach
  rcases hin.brought hw with ⟨src, hne, ⟨boot, reqId, hsent⟩ | ⟨boot, reqId, hp⟩⟩
  · refine ⟨src, hne, (hboast src).sent e boot reqId (.replicate j) j.id ?_ ?_⟩
    · rw [hsane.names]
      exact hsent
    · rw [Request.completion, if_pos hdone]
  · refine ⟨src, hne, (hboast src).shown e boot reqId (.resync j.id) kCreated j ?_ hdone⟩
    rw [hsane.names]
    exact hp

/-- What a passive record leaves done and owned was so before, or another node
    has the job done. -/
theorem Inside.passive_done (hK : ∀ c e t, K c e t → SparesDone c e t) (hin : Inside K d c e t m)
    {r : Record} {id : JobId} {j : Job} (h : Passive t (c.node e) m r)
    (hj : (m.store.table.apply r).find id = some j) (hdone : j.state = .done)
    (howner : j.owner = e) : (∃ x, x ≠ e ∧ (c.node x).store.table.isDone id) ∨
      ∃ l, m.find id = some l ∧ l.state = .done ∧ l.owner = e := by
  by_cases hid : r.jobId = id
  swap
  · rw [Table.find_apply_of_ne _ _ _ hid] at hj
    exact Or.inr ⟨j, hj, hdone, howner⟩
  subst hid
  rw [Table.find_apply_self] at hj
  -- A full copy replaces the stored one or leaves it.
  have hfull : ∀ j', r = .replicate j' → Writes t (c.node e) m r →
      (∃ x, x ≠ e ∧ (c.node x).store.table.isDone r.jobId) ∨
        ∃ l, m.find r.jobId = some l ∧ l.state = .done ∧ l.owner = e := by
    rintro j' rfl hw
    have hcases : j = j' ∨ m.find j'.id = some j := by
      change (Record.replicate j').effect (m.find j'.id) = some j at hj
      cases hfind : m.find j'.id with
      | none =>
        rw [hfind] at hj
        exact Or.inl (Option.some.inj hj).symm
      | some l =>
        rw [hfind, Record.effect, Option.some.injEq] at hj
        rcases (Record.replicate j').on_full l rfl with hon | hon
        · exact Or.inl (hj.symm.trans hon)
        · exact Or.inr (by rw [← hj, hon])
    rcases hcases with rfl | hold
    · exact Or.inl (hin.brought_done hK hw hdone)
    · exact Or.inr ⟨j, hold, hdone, howner⟩
  cases h with
  | serve ctx _ body serves =>
    have hw : Writes t (c.node e) m r := .serve ctx r body serves
    rcases hin.served_owner serves hj with ⟨j', rfl⟩ | hne
    · exact hfull j' rfl hw
    · exact absurd howner hne
  | adopt j' writes => exact hfull j' rfl writes
  | unlease id' l q s epoch leaseSeq worker found =>
    right
    change (Record.expire id' l.epoch l.leaseSeq).effect (m.find id') = some j at hj
    cases hfind : m.find id' with
    | none =>
      rw [hfind] at hj
      cases hj
    | some l =>
      rw [hfind, Record.effect, Option.some.injEq, Record.on] at hj
      split at hj
      · rw [← hj] at hdone
        cases hdone
      · exact ⟨j, by rw [← hj]; exact hfind, hdone, howner⟩
  | seize id' l epoch found other active =>
    -- Only an active copy is taken over.
    change (Record.takeover id' epoch m.self).effect (m.find id') = some j at hj
    rw [found, Record.effect, Option.some.injEq] at hj
    rw [← hj, (takeover_on_state id' epoch m.self l).1] at hdone
    simp [Job.terminal, hdone] at active

/-- The repair entries of done copies are as they should be. -/
theorem confirmed (hK : ∀ c e t, K c e t → AckConfirmed c e t) :
    Always K d (fun w => ∀ e, Confirmed w (w e)) := by
  have hspare : ∀ c e t, K c e t → SparesDone c e t := fun c e t h => (hK c e t h).1
  refine always_of_kept (R := World.KeepsDone) (fun hin hmove => hin.done_kept hspare hmove) ?_ ?_
    (fun {c e t m m'} hin _ hm hkept hmove => ?_)
  · intro w w' n hdone h id j hj hd ho
    rcases h id j hj hd ho with ⟨x, hx, hxd⟩ | hz
    · exact Or.inl ⟨x, hx, hdone x id hxd⟩
    · exact Or.inr hz
  · intro e id j hj
    cases hj
  · have hself := hmove.self_eq.1
    have hme := hin.self_eq
    -- Whoever else has the job done before the move has it done after it.
    have hother : ∀ id, (∃ x, x ≠ e ∧ (c.node x).store.table.isDone id) →
        Backed (Function.update c.node e m') m'.self id := by
      rintro id ⟨x, hx, hxd⟩
      refine ⟨x, by rw [hself, hme]; exact hx, ?_⟩
      rw [Function.update_of_ne hx]
      exact hxd
    have hback : ∀ id, Backed (Function.update c.node e m) m.self id →
        Backed (Function.update c.node e m') m'.self id := by
      rintro id ⟨x, hx, hxd⟩
      rw [hme] at hx
      rw [Function.update_of_ne hx] at hxd
      exact hother id ⟨x, hx, hxd⟩
    have hold : ∀ id j, m.find id = some j → j.state = .done → j.owner = m.self →
        m'.repair.lookup id = m.repair.lookup id →
        Backed (Function.update c.node e m') m'.self id ∨ m'.repair.lookup id = some 0 := by
      intro id j hj hd ho hr
      rcases hm id j hj hd ho with hb | hz
      · exact Or.inl (hback id hb)
      · exact Or.inr (hr.trans hz)
    intro id j hj hd ho
    change m'.store.table.find id = some j at hj
    cases hmove.repair_step with
    | same hrep htab =>
      rw [htab] at hj
      exact hold id j hj hd (ho.trans hself) (by rw [hrep])
    | passive r hpass hrep htab =>
      rw [htab] at hj
      rcases hin.passive_done hspare hpass hj hd (ho.trans (hself.trans hme)) with
        hsome | ⟨l, hl, hld, hlo⟩
      · exact Or.inl (hother id hsome)
      · exact hold id l hl hld (hlo.trans hme.symm) (by rw [hrep])
    | drop id' j' found other hrep htab =>
      rw [htab] at hj
      have hne : id ≠ id' := by
        rintro rfl
        have hjj : j' = j := Option.some.inj (found.symm.trans hj)
        exact other (by rw [hjj, ho, hself])
      exact hold id j hj hd (ho.trans hself) (by rw [hrep, AList.lookup_erase_ne hne])
    | zero id' hrep htab =>
      by_cases hid : id = id'
      · right
        rw [hrep, hid, AList.lookup_insert]
      · have hfind : m.store.table.find id = some j := by
          rcases htab with htab | ⟨r, hr, htab⟩
          · rw [← htab]
            exact hj
          · rw [htab, Table.find_apply_of_ne _ _ _ (by rw [hr]; exact Ne.symm hid)] at hj
            exact hj
        exact hold id j hfind hd (ho.trans hself) (by rw [hrep, AList.lookup_insert_ne hid])
    | mark id' slot confirms first settles hrep htab =>
      rw [htab] at hj
      by_cases hid : id = id'
      · subst hid
        have hfind := Node.find_of_store first hj
        exact Or.inl (hother id (hin.confirmed_done hK confirms hfind hd))
      · exact hold id j hj hd (ho.trans hself) (by rw [hrep, markReplicaOk_repair_of_ne hid])
    | restart unconfirmed => exact Or.inr (unconfirmed id j hj ho)

/-- A positive answer to a completion: the job is done here, and elsewhere too
    unless there is nobody else. -/
def Acked (w : World) (n : Node) : Prop :=
  ∀ id, .ownerAcked id true kCreated ∈ n.events → n.store.table.isDone id ∧
    (Backed w n.self id ∨ ∃ j, Held n.store.log id j ∧ j.peers n.self = [])

theorem acked (hK : ∀ c e t, K c e t → AckConfirmed c e t) :
    Always K d (fun w => ∀ e, Acked w (w e)) := by
  have hspare : ∀ c e t, K c e t → SparesDone c e t := fun c e t h => (hK c e t h).1
  refine always_of_kept (R := World.KeepsDone) (fun hin hmove => hin.done_kept hspare hmove) ?_
    (fun e id hev => by cases hev) (fun {c e t m m'} hin _ hm hkept hmove => ?_)
  · intro w w' n hdone h id hev
    rcases h id hev with ⟨hd, ⟨x, hx, hxd⟩ | hnone⟩
    · exact ⟨hd, Or.inl ⟨x, hx, hdone x id hxd⟩⟩
    · exact ⟨hd, Or.inr hnone⟩
  · have hself := hmove.self_eq.1
    have hme := hin.self_eq
    have hboast := (boasts (d := d) hspare).inside hin e
    have hconf := (confirmed (d := d) hK).inside hin e
    rw [Function.update_self] at hboast hconf
    have hdone : ∀ id, m.store.table.isDone id → m'.store.table.isDone id := by
      intro id h
      have hk := hkept e id
      rw [Function.update_self, Function.update_self] at hk
      exact hk h
    have hback : ∀ id, Backed (Function.update c.node e m) m.self id →
        Backed (Function.update c.node e m') m'.self id := by
      rintro id ⟨x, hx, hxd⟩
      exact ⟨x, by rw [hself]; exact hx, hkept x id hxd⟩
    intro id hev
    rcases hmove.event_cases hev with hold | hnew
    · rcases hm id hold with ⟨hd, hb | ⟨j, hj, hp⟩⟩
      · exact ⟨hdone id hd, Or.inl (hback id hb)⟩
      · exact ⟨hdone id hd, Or.inr ⟨j, hj.mono hmove.log_prefix, by rw [hself]; exact hp⟩⟩
    · generalize hst : kCreated = st at hnew
      generalize hsucc : true = success at hnew
      cases hnew with
      | idle _ h => cases h
      | ownerAck cb _ _ _ why =>
        cases why with
        | alone _ l r _ found owned begins peers stored =>
          cases begins with
          | done epoch leaseSeq _ acks =>
            refine ⟨?_, Or.inr ⟨l, (Node.held_of_find found).mono hmove.log_prefix, ?_⟩⟩
            · rw [stored]
              exact Table.isDone_complete l.leaseSeq found le_rfl
            · rw [hself]
              exact peers
        | quorum id₀ _ slot member r q s body _ answers state pending isAck first same =>
          have hd := hboast.acks s (List.mem_of_getElem? state) id cb isAck
          refine ⟨hdone id hd, Or.inl (hback id ?_)⟩
          -- The confirmed record is the completion the ack waits for.
          have hid : id₀ = id := by
            rcases hin.carried answers (same ▸ state) with ⟨hid, hcar⟩
            rw [isAck] at hcar
            rcases hcar with ⟨epoch, leaseSeq, hr⟩
            rw [← hid, hr]
            rfl
          subst hid
          rcases hd with ⟨j, hj, hjd⟩
          have hfind := Node.find_of_store first hj
          rcases hin.confirmed_done hK (.apply member r q body answers) hfind hjd with
            ⟨x, hx, hxd⟩
          refine ⟨x, by rw [hme]; exact hx, ?_⟩
          rw [Function.update_of_ne hx]
          exact hxd
        | done _ j epoch leaseSeq _ _ acks found owned done unlisted =>
          refine ⟨hdone id ⟨j, found, done⟩, Or.inl (hback id ?_)⟩
          rcases hconf id j found done owned with hb | hz
          · exact hb
          · exact absurd (AList.lookup_isSome.mp (by rw [hz]; rfl)) unlisted
        | plain _ _ _ _ source h =>
          rcases h with h | h
          · exact absurd (hsucc.trans h) (by simp)
          · exact absurd hst.symm h

end Invariants

/-- In every run that meets the condition, whenever an owner has answered a success
    ack positively its copy is done, and with a second pinned member there is
    another pinned member whose copy is done. -/
theorem acked_majority (d : Deployment) (acts : List Act) (c : Cluster)
    (hrun : d.init.exec acts = some c) (hK : d.init.Meets AckConfirmed acts) (e : Endpoint)
    (id : JobId) (hev : .ownerAcked id true kCreated ∈ (c.node e).events) :
    ∃ j, (c.node e).find id = some j ∧ j.state = .done ∧
      (2 ≤ j.replicas.pinned.toFinset.card → ∃ x ∈ j.replicas.pinned, x ≠ e ∧
        ∃ j', (c.node x).find id = some j' ∧ j'.state = .done) := by
  have hreach := Reach.of_run hrun hK
  have hsane := sane.reach hreach
  rcases (acked (fun _ _ _ h => h)).reach hreach e id hev with ⟨⟨j, hj, hd⟩, hback⟩
  rw [hsane.names] at hback
  refine ⟨j, hj, hd, fun hcard => ?_⟩
  rcases hback with ⟨x, hx, j', hj', hd'⟩ | ⟨l, hl, hpeers⟩
  · exact ⟨x, hreach.pinned hj hj', hx, j', hj', hd'⟩
  · -- There is another member, so there is a peer.
    have hsame := hsane.same hl (Node.held_of_find hj)
    exact absurd (hsame.peers e ▸ hpeers) (peers_ne_nil hcard e)

namespace Trio

/-- The worker asks twice; the second answer comes from the missing repair entry. -/
def askedTwice : List Act :=
  views ++
    [.does a (.submit params), .takes a 0, .takes b 0, .takes a 1, .takes c 0, .does a (.lease 7),
      .takes a 2, .takes b 1, .takes a 3, .takes c 1, .does a (.ack job 1 1 true), .takes a 4,
      .takes b 2, .takes a 5, .takes c 2, .does a (.ack job 1 1 true)]

end Trio

/-- The condition is met by a run in which a completion is confirmed and asked for
    again, of a job with three pinned members. -/
theorem acked_majority_askedTwice : ∃ c, Trio.cluster.init.exec Trio.askedTwice = some c ∧
    Trio.cluster.init.Meets AckConfirmed Trio.askedTwice ∧
    (c.node Trio.a).events.count (.ownerAcked Trio.job true kCreated) = 2 ∧
    ∃ x ∈ [Trio.a, Trio.b, Trio.c], x ≠ Trio.a ∧
      ∃ j', (c.node x).find Trio.job = some j' ∧ j'.state = .done := by
  have hK : Trio.cluster.init.Meets AckConfirmed Trio.askedTwice := by decide +kernel
  have hshow : ∃ c, Trio.cluster.init.exec Trio.askedTwice = some c ∧
      (c.node Trio.a).events.count (.ownerAcked Trio.job true kCreated) = 2 ∧
      ((c.node Trio.a).find Trio.job).map (fun j => j.replicas.pinned) =
        some [Trio.a, Trio.b, Trio.c] := run_shows (by decide +kernel)
  rcases hshow with ⟨c, hc, hcount, hpinned⟩
  have hev : .ownerAcked Trio.job true kCreated ∈ (c.node Trio.a).events :=
    List.count_pos_iff.mp (by omega)
  rcases acked_majority _ _ c hc hK Trio.a Trio.job hev with ⟨j, hj, _, hmajority⟩
  rw [hj, Option.map_some, Option.some.injEq] at hpinned
  rw [hpinned] at hmajority
  exact ⟨c, hc, hK, hcount, hmajority (by decide)⟩

end Tautq
