import Mathlib.Data.Nat.ModEq
import Tautq.Core.Ring
import Tautq.Core.Submit

/-!
# Placement on the Ring

Where a key lands depends on which endpoints are on the ring and not on the
order they are listed in: the ring order is total and tells any two endpoints
apart, so two lists of the same endpoints sort to one list. That is what makes
the owner of a key the same at every gateway.

The pinned set of a new job is a walk of the live ring, or the minting node
with the first two others. Both list distinct endpoints and leave empty slots
only at the end.

## Main definitions

* `ReplicaSet.Packed`: Distinct members, the empty slots last.

## Theorems

* `ekey_inj`: Endpoints are told apart by their keys.
* `mem_members`, `mem_alive`: Whom the two membership lists name.
* `ownerFor_congr`: The owner of a key depends on the set of endpoints only.
* `pinReplicas_first`, `pinReplicas_packed`: The pinned set of a new job.
-/

namespace Tautq

/-! ### Keys of endpoints -/

/-- A value below the shift is read back from the combination. -/
theorem shiftLeft_or_inj {k a a' b b' : Nat} (hb : b < 2 ^ k) (hb' : b' < 2 ^ k)
    (h : a <<< k ||| b = a' <<< k ||| b') : a = a' ∧ b = b' := by
  rw [← Nat.shiftLeft_add_eq_or_of_lt hb, ← Nat.shiftLeft_add_eq_or_of_lt hb', Nat.shiftLeft_eq,
    Nat.shiftLeft_eq] at h
  have hpos : 0 < 2 ^ k := Nat.two_pow_pos k
  have hmod := congrArg (· % 2 ^ k) h
  simp only [Nat.mul_add_mod', Nat.mod_eq_of_lt hb, Nat.mod_eq_of_lt hb'] at hmod
  rw [hmod] at h
  exact ⟨Nat.eq_of_mul_eq_mul_right hpos (Nat.add_right_cancel h), hmod⟩

/-- Endpoints are told apart by their keys. -/
theorem ekey_inj {a b : Endpoint} (h : ekey a = ekey b) : a = b := by
  have hk := shiftLeft_or_inj (k := 16) a.port.toNat_lt b.port.toNat_lt h
  rw [UInt32.toNat_inj, UInt16.toNat_inj] at hk
  rcases a with ⟨addr, port⟩
  rcases b with ⟨addr', port'⟩
  exact Endpoint.mk.injEq .. ▸ hk

/-! ### Lists without repetitions -/

section Fresh

variable {α : Type} [DecidableEq α]

theorem mem_foldl_fresh (xs out : List α) (x : α) :
    x ∈ xs.foldl (fun out e => if e ∈ out then out else out ++ [e]) out ↔ x ∈ out ∨ x ∈ xs := by
  induction xs generalizing out with
  | nil => simp
  | cons y ys ih =>
    rw [List.foldl_cons, ih]
    by_cases hy : y ∈ out
    · rw [if_pos hy, List.mem_cons]
      constructor
      · intro h
        exact h.imp_right Or.inr
      · rintro (h | rfl | h)
        exacts [Or.inl h, Or.inl hy, Or.inr h]
    · rw [if_neg hy, List.mem_append, List.mem_singleton, List.mem_cons, or_assoc]

theorem nodup_foldl_fresh (xs out : List α) (h : out.Nodup) :
    (xs.foldl (fun out e => if e ∈ out then out else out ++ [e]) out).Nodup := by
  induction xs generalizing out with
  | nil => exact h
  | cons y ys ih =>
    rw [List.foldl_cons]
    refine ih _ ?_
    by_cases hy : y ∈ out
    · rw [if_pos hy]
      exact h
    · rw [if_neg hy]
      refine h.append (List.nodup_singleton y) ?_
      intro x hx hxy
      rw [List.mem_singleton] at hxy
      exact hy (hxy ▸ hx)

end Fresh

namespace Node

theorem mem_members (n : Node) (x : Endpoint) : x ∈ n.members ↔ x ∈ n.self :: n.cfg.members := by
  rw [members, mem_foldl_fresh, List.mem_singleton, List.mem_cons]

theorem nodup_members (n : Node) : n.members.Nodup :=
  nodup_foldl_fresh _ _ (List.nodup_singleton _)

theorem mem_alive (n : Node) (x : Endpoint) : x ∈ n.alive ↔ x ∈ n.self :: n.peers := by
  rw [alive, mem_foldl_fresh, List.mem_singleton, List.mem_cons]

theorem nodup_alive (n : Node) : n.alive.Nodup :=
  nodup_foldl_fresh _ _ (List.nodup_singleton _)

end Node

/-! ### The ring order -/

namespace Ring

/-- One endpoint is not after another. -/
def Upto (a b : Endpoint) : Prop :=
  less b a = false

theorem upto_iff (a b : Endpoint) : Upto a b ↔ mix (ekey a) < mix (ekey b) ∨
    (mix (ekey a) = mix (ekey b) ∧ ekey a ≤ ekey b) := by
  unfold Upto less
  split_ifs with h
  · rw [decide_eq_false_iff_not]
    omega
  · rw [decide_eq_false_iff_not]
    omega

instance : DecidableRel Upto :=
  fun a b => inferInstanceAs (Decidable (less b a = false))

instance : Std.Total Upto where
  total a b := by
    rw [upto_iff, upto_iff]
    omega

instance : IsTrans Endpoint Upto where
  trans a b c := by
    rw [upto_iff, upto_iff, upto_iff]
    omega

instance : Std.Antisymm Upto where
  antisymm a b := by
    rw [upto_iff, upto_iff]
    intro h h'
    exact ekey_inj (by omega)

theorem perm_positions (nodes : List Endpoint) : (positions nodes).Perm nodes :=
  List.perm_insertionSort _ nodes

/-- Two lists of the same endpoints have one ring. -/
theorem positions_congr {xs ys : List Endpoint} (h : xs.Perm ys) : positions xs = positions ys := by
  have hxs : (positions xs).Pairwise Upto := List.pairwise_insertionSort Upto xs
  have hys : (positions ys).Pairwise Upto := List.pairwise_insertionSort Upto ys
  refine List.Perm.eq_of_pairwise' hxs hys ?_
  exact (perm_positions xs).trans (h.trans (perm_positions ys).symm)

/-- The owner of a key depends on the set of endpoints only. -/
theorem ownerFor_congr (key : Bytes) {xs ys : List Endpoint} (hxs : xs.Nodup) (hys : ys.Nodup)
    (h : ∀ x, x ∈ xs ↔ x ∈ ys) : ownerFor key xs = ownerFor key ys := by
  have hperm : xs.Perm ys := (List.perm_ext_iff_of_nodup hxs hys).mpr h
  rw [ownerFor, ownerFor, replicaSet, replicaSet, positions_congr hperm]

/-! ### Walks of the ring -/

theorem clockwise_mem {ps : List Endpoint} {s i : Nat} (h : i < ps.length) :
    clockwise ps s i ∈ ps := by
  have hlt : (s + i) % ps.length < ps.length := Nat.mod_lt _ (by omega)
  rw [clockwise, if_pos h, List.getD_eq_getElem _ _ hlt]
  exact List.getElem_mem hlt

theorem clockwise_beyond {ps : List Endpoint} {s i : Nat} (h : ps.length ≤ i) :
    clockwise ps s i = {} := by
  rw [clockwise, if_neg (by omega)]

/-- A walk meets an endpoint once. -/
theorem clockwise_inj {ps : List Endpoint} (hps : ps.Nodup) {s i k : Nat} (hi : i < ps.length)
    (hk : k < ps.length) (h : clockwise ps s i = clockwise ps s k) : i = k := by
  have hlt : ∀ x, (s + x) % ps.length < ps.length := fun x => Nat.mod_lt _ (by omega)
  rw [clockwise, clockwise, if_pos hi, if_pos hk, List.getD_eq_getElem _ _ (hlt i),
    List.getD_eq_getElem _ _ (hlt k), hps.getElem_inj_iff] at h
  have hmod : i ≡ k [MOD ps.length] := Nat.ModEq.add_left_cancel' s h
  exact hmod.eq_of_lt_of_lt hi hk

end Ring

/-! ### Pinned sets -/

/-- Distinct members, the empty slots last. -/
structure ReplicaSet.Packed (r : ReplicaSet) : Prop where
  nodup : r.pinned.Nodup
  second : r.first = {} → r.second = {}
  third : r.second = {} → r.third = {}

/-- Three slots are packed if the members are distinct and no member follows an
    empty slot. -/
theorem ReplicaSet.Packed.of_slots {a b c : Endpoint} (ha : a ≠ {}) (hab : b ≠ {} → a ≠ b)
    (hac : c ≠ {} → a ≠ c ∧ b ≠ c ∧ b ≠ {}) : ReplicaSet.Packed ⟨a, b, c⟩ := by
  have hthird : b = {} → c = {} := by
    intro hb
    by_contra hc
    exact (hac hc).2.2 hb
  refine ⟨?_, fun h => absurd h ha, hthird⟩
  rw [ReplicaSet.pinned, ReplicaSet.toList, List.filter_cons_of_pos (by simpa using ha)]
  by_cases hb : b = {}
  · rw [hb, hthird hb]
    simp
  · rw [List.filter_cons_of_pos (by simpa using hb)]
    by_cases hc : c = {}
    · rw [hc]
      simpa using hab hb
    · rw [List.filter_cons_of_pos (by simpa using hc)]
      simpa using ⟨⟨hab hb, (hac hc).1⟩, (hac hc).2.1⟩

namespace Node

theorem pinReplicas_first (n : Node) (key : Bytes) : (n.pinReplicas key).first = n.self := by
  by_cases h : (Ring.replicaSet key n.alive).first = n.self
  · rw [pinReplicas, if_neg (by simpa using h)]
    exact h
  · rw [pinReplicas, if_pos (by simpa using h)]

/-- The live ring's walk is packed. -/
theorem replicaSet_packed (key : Bytes) {nodes : List Endpoint} (hnodup : nodes.Nodup)
    (hreal : ({} : Endpoint) ∉ nodes) (hne : nodes ≠ []) :
    (Ring.replicaSet key nodes).Packed := by
  have hperm := Ring.perm_positions nodes
  have hps : (Ring.positions nodes).Nodup := hperm.nodup_iff.mpr hnodup
  have hlen : 0 < (Ring.positions nodes).length := by
    rw [hperm.length_eq]
    exact List.length_pos_iff.mpr hne
  -- A slot is empty exactly where the ring is too short for it.
  have hslot : ∀ s i, Ring.clockwise (Ring.positions nodes) s i ≠ {} ↔
      i < (Ring.positions nodes).length := by
    intro s i
    constructor
    · intro h
      by_contra hlt
      exact h (Ring.clockwise_beyond (by omega))
    · intro h heq
      exact hreal (hperm.subset (heq ▸ Ring.clockwise_mem h))
  rw [Ring.replicaSet]
  refine ReplicaSet.Packed.of_slots ((hslot _ _).mpr hlen) (fun hb => ?_) (fun hc => ?_)
  · intro h
    have := Ring.clockwise_inj hps hlen ((hslot _ _).mp hb) h
    omega
  · have h2 := (hslot _ _).mp hc
    refine ⟨fun h => ?_, fun h => ?_, (hslot _ _).mpr (by omega)⟩
    · have := Ring.clockwise_inj hps hlen h2 h
      omega
    · have := Ring.clockwise_inj hps (by omega) h2 h
      omega

/-- A new job is pinned to distinct members, the empty slots last. -/
theorem pinReplicas_packed (n : Node) (key : Bytes) (hself : n.self ≠ {})
    (hpeers : ({} : Endpoint) ∉ n.peers) : (n.pinReplicas key).Packed := by
  have hreal : ({} : Endpoint) ∉ n.alive := by
    rw [mem_alive, List.mem_cons, not_or]
    exact ⟨hself.symm, hpeers⟩
  by_cases h : (Ring.replicaSet key n.alive).first = n.self
  · rw [pinReplicas, if_neg (by simpa using h)]
    refine replicaSet_packed key n.nodup_alive hreal ?_
    exact List.ne_nil_of_mem ((mem_alive n n.self).mpr List.mem_cons_self)
  · rw [pinReplicas, if_pos (by simpa using h)]
    have hothers := n.nodup_alive.filter (fun e => decide (e ≠ n.self))
    have hmem : ∀ x ∈ n.alive.filter (fun e => decide (e ≠ n.self)), x ≠ n.self ∧ x ≠ {} := by
      intro x hx
      rw [List.mem_filter, decide_eq_true_eq] at hx
      exact ⟨hx.2, fun h => hreal (h ▸ hx.1)⟩
    generalize n.alive.filter (fun e => decide (e ≠ n.self)) = others at hothers hmem
    match others with
    | [] => exact .of_slots hself (fun h => absurd rfl h) (fun h => absurd rfl h)
    | [x] => exact .of_slots hself (fun _ => (hmem x (by simp)).1.symm) (fun h => absurd rfl h)
    | x :: y :: rest =>
      have hxy : x ≠ y := by
        intro h
        rw [h, List.nodup_cons] at hothers
        exact hothers.1 List.mem_cons_self
      exact .of_slots hself (fun _ => (hmem x (by simp)).1.symm)
        (fun _ => ⟨(hmem y (by simp)).1.symm, hxy, (hmem x (by simp)).2⟩)

end Node

end Tautq
