import Tautq.Theory.Rpc

/-!
# Positive Answers to Submits

A submit is answered at three places: by the owner to its own client, by the
owner to a gateway, and by the gateway to its client. Where responses reach
the incarnation that asked, the third only repeats the second, so what the
owner makes sure of when it answers holds of every answer (`always_answered`).

## Main definitions

* `SubmitCb.key`: The key a submit callback answers for.
* `Positive`: The statuses that come with the id of a job.
* `Answered`: Every such answer of a node is right about key and job.

## Theorems

* `always_answered`: What every owner makes sure of, every answer tells.
-/

namespace Tautq

open Status Cluster

/-- The key a submit callback answers for. -/
def SubmitCb.key : SubmitCb → Bytes
  | .client key => key
  | .reply { asked := .fwdSubmit p, .. } => p.idemKey
  | .reply _ => []

theorem SubmitCb.key_reply {ctx : ReqCtx} {p : SubmitParams} (h : ctx.asked = .fwdSubmit p) :
    (SubmitCb.reply ctx).key = p.idemKey := by
  rcases ctx with ⟨src, boot, reqId, asked⟩
  simp only at h
  rw [h]
  rfl

theorem Submits.cb_key {t : Trigger} {m : Node} {p : SubmitParams} {cb : SubmitCb}
    (h : Submits t m p cb) : cb.key = p.idemKey := by
  cases h with
  | client => rfl
  | forwarded ctx _ asked => exact SubmitCb.key_reply asked

/-- A submit was answered with the id of a job. -/
def Positive (st : Status) : Prop :=
  st = kCreated ∨ st = kDuplicate

/-- Every answer of a node with one of certain statuses is right about key and job. -/
structure Answered (S : Status → Prop) (P : World → Bytes → JobId → Prop) (w : World) (n : Node) :
    Prop where
  replied : ∀ dst boot reqId p st id, S st →
    .response n.self dst boot reqId (.fwdSubmit p) st (.jobId id) ∈ n.outbox → P w p.idemKey id
  told : ∀ key st id, S st → .submitAnswered key st id ∈ n.events → P w key id

/-- What every owner makes sure of when it answers, every answer tells. -/
theorem always_answered {K : Cond} {d : Deployment} {S : Status → Prop}
    {P : World → Bytes → JobId → Prop} (hK : ∀ c e t, K c e t → Matched c e t)
    (positive : ∀ st, S st → Positive st)
    (mono : ∀ {w w' : World} {key : Bytes} {id : JobId}, w.Grows w' → P w key id → P w' key id)
    (step : ∀ {c e t m m' cb st id}, Inside K d c e t m → Move t (c.node e) m m' →
      SubmitTold t (c.node e) m m' cb st id → S st → P (Function.update c.node e m') cb.key id) :
    Always K d (fun w => ∀ e, Answered S P w (w e)) := by
  refine always_of_node
    (fun hg h =>
    ⟨fun dst boot reqId p st id hst hp => mono hg (h.replied dst boot reqId p st id hst hp),
      fun key st id hst hev => mono hg (h.told key st id hst hev)⟩)
    (fun e => by constructor <;> simp [Deployment.init])
      (fun {c e t m m'} hin hc hm hgrow hmove => ?_)
  constructor
  · intro dst boot reqId p st id hst hp
    rw [hmove.self_eq.1] at hp
    rcases hmove.response_cases hp with hold | hnew
    · exact mono hgrow (hm.replied dst boot reqId p st id hst hold)
    · generalize hasked : Request.fwdSubmit p = asked at hnew
      cases hnew with
      | submit ctx _ _ why =>
        rw [← SubmitCb.key_reply hasked.symm]
        exact step hin hmove why hst
      | serve ctx r _ serves => cases serves
  · intro key st id hst hev
    rcases hmove.event_cases hev with hold | hnew
    · exact mono hgrow (hm.told key st id hst hold)
    · generalize id = id₀ at hnew
      cases hnew with
      | idle _ h =>
        rcases positive st hst with h' | h'
        · exact absurd h' h.1
        · exact absurd h' h.2
      | submit _ _ _ why => exact step hin hmove why hst
      | relay _ _ body answers =>
        -- The gateway relays what the owner has answered.
        rcases hin.answered answers with ⟨src, asked, ⟨boot, reqId, hp⟩, hfits, hexp | ⟨_, hnot⟩⟩
        · cases hexp with
          | fwdSubmit p =>
            rcases hfits with ⟨id', rfl⟩ | ⟨hc', hd', _⟩
            · have hname := (names.reach hin.reach src).1
              refine mono (hin.tail hmove).grows ?_
              exact (hc src).replied e boot reqId p st id' hst (by rw [hname]; exact hp)
            · rcases positive st hst with h' | h'
              · exact absurd h' hc'
              · exact absurd h' hd'
        · exact absurd (hK c e t hin.allowed) hnot

end Tautq
