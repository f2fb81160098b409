import Mathlib.Data.List.Rotate
import Mathlib.Data.List.TakeWhile
import Tautq.Theory.Ring

/-!
# Placement is a Walk

What the sort, the scan and the modular indices of a placement amount to. Seen from a
key's hash the ring is a list: first the endpoints at or past the hash, in ring order,
then the ones before it, in ring order too. Being met no later than another endpoint is
an order on endpoints that tells any two apart, so there is one such list for a set of
endpoints, and the code takes its first three.

That a key moves only where it must is then a fact about ordered lists. Deleting an
endpoint from the list leaves it ordered, so what is left is the walk of the endpoints
that are left.

## Main definitions

* `Ring.Met`: One endpoint is met no later than another on the walk from a position.
* `Ring.Walk`: The endpoints in the order they are met.
* `Ring.firstThree`: The slots a walk fills.

## Theorems

* `Ring.Walk.unique`: A set of endpoints has one walk.
* `replica_set_is_walk`: The replica set is the first three endpoints met.
* `removal_moves_only_its_own`: Without an endpoint the walk is the old one without it.
-/

namespace Tautq

namespace Ring

/-- One endpoint is met no later than another on the walk from a position: the ones at or
    past it come first. -/
def Met (kh : Nat) (a b : Endpoint) : Prop :=
  (kh ≤ mix (ekey a) ∧ mix (ekey b) < kh) ∨
    ((kh ≤ mix (ekey a) ↔ kh ≤ mix (ekey b)) ∧ Upto a b)

instance (kh : Nat) : Std.Antisymm (Met kh) where
  antisymm a b := by
    rw [Met, Met, upto_iff, upto_iff]
    intro h h'
    exact ekey_inj (by omega)

/-- The endpoints in the order they are met on the walk from a position. -/
structure Walk (kh : Nat) (nodes w : List Endpoint) : Prop where
  perm : w.Perm nodes
  ordered : w.Pairwise (Met kh)

/-- The slots a walk fills. -/
def firstThree (w : List Endpoint) : ReplicaSet :=
  { first := w.getD 0 {}, second := w.getD 1 {}, third := w.getD 2 {} }

/-- A set of endpoints has one walk. -/
theorem Walk.unique {kh : Nat} {xs ys w v : List Endpoint} (hw : Walk kh xs w) (hv : Walk kh ys v)
    (h : xs.Perm ys) : w = v :=
  List.Perm.eq_of_pairwise' hw.ordered hv.ordered (hw.perm.trans (h.trans hv.perm.symm))

/-- Without an endpoint the walk is the old one without it. -/
theorem Walk.erase {kh : Nat} {nodes w : List Endpoint} (h : Walk kh nodes w) (x : Endpoint) :
    Walk kh (nodes.erase x) (w.erase x) :=
  ⟨h.perm.erase x, h.ordered.sublist List.erase_sublist⟩

/-! ### The code's walk -/

/-- The indices run over what the scan did not pass, then over what it passed. -/
theorem rotate_start (ps : List Endpoint) (kh : Nat) :
    ps.rotate (start ps kh) = ps.dropWhile (fun e => decide (mix (ekey e) < kh)) ++
      ps.takeWhile (fun e => decide (mix (ekey e) < kh)) := by
  generalize hbelow : (fun e => decide (mix (ekey e) < kh)) = below
  have hsplit : ps.takeWhile below ++ ps.dropWhile below = ps := List.takeWhile_append_dropWhile
  have hlen := congrArg List.length hsplit
  rw [List.length_append] at hlen
  have hrotate := List.rotate_append_length_eq (ps.takeWhile below) (ps.dropWhile below)
  rw [hsplit] at hrotate
  rw [start, hbelow]
  by_cases hall : (ps.takeWhile below).length = ps.length
  · -- Everything is below the hash: the scan ran off the end and starts over.
    have hnil : ps.dropWhile below = [] := List.length_eq_zero_iff.mp (by omega)
    rw [hnil, List.append_nil] at hsplit
    rw [if_pos hall, List.rotate_zero, hnil, List.nil_append, hsplit]
  · rw [if_neg hall, hrotate]

/-- The endpoints from the successor on, in the order the indices run. -/
theorem clockwise_eq_getD (ps : List Endpoint) (s i : Nat) :
    clockwise ps s i = (ps.rotate s).getD i {} := by
  by_cases hi : i < ps.length
  · have hlt : (s + i) % ps.length < ps.length := Nat.mod_lt _ (by omega)
    rw [clockwise, if_pos hi, List.getD_eq_getElem _ _ hlt,
      List.getD_eq_getElem _ _ (by rw [List.length_rotate]; exact hi), List.getElem_rotate]
    simp only [Nat.add_comm]
  · rw [clockwise, if_neg hi, List.getD_eq_default _ _ (by rw [List.length_rotate]; omega)]

theorem walk_positions (kh : Nat) (nodes : List Endpoint) :
    Walk kh nodes ((positions nodes).rotate (start (positions nodes) kh)) := by
  have hsorted : (positions nodes).Pairwise Upto := List.pairwise_insertionSort Upto nodes
  refine ⟨(List.rotate_perm _ _).trans (perm_positions nodes), ?_⟩
  rw [rotate_start]
  generalize positions nodes = ps at hsorted ⊢
  generalize hbelow : (fun e => decide (mix (ekey e) < kh)) = below
  have hlow : ∀ e ∈ ps.takeWhile below, mix (ekey e) < kh := by
    intro e he
    have h := List.mem_takeWhile_imp he
    rw [← hbelow] at h
    exact of_decide_eq_true h
  -- The ring is sorted, so nothing behind the first endpoint past the hash is before it.
  have hhigh : ∀ e ∈ ps.dropWhile below, kh ≤ mix (ekey e) := by
    intro e he
    rcases hd : ps.dropWhile below with _ | ⟨d, ds⟩
    · rw [hd] at he
      cases he
    have hsub := hsorted.sublist (ps.dropWhile_sublist below)
    have hd0 : below d = false := by
      have h := List.head_dropWhile_not below (l := ps) (by rw [hd]; exact List.cons_ne_nil d ds)
      simpa only [hd, List.head_cons] using h
    rw [← hbelow] at hd0
    have hdle : kh ≤ mix (ekey d) := Nat.le_of_not_lt (of_decide_eq_false hd0)
    rw [hd] at he hsub
    rcases List.mem_cons.mp he with rfl | hmem
    · exact hdle
    · have h := List.rel_of_pairwise_cons hsub hmem
      rw [upto_iff] at h
      omega
  refine List.pairwise_append.mpr ⟨?_, ?_, fun a ha b hb => ?_⟩
  · refine (hsorted.sublist (ps.dropWhile_sublist below)).imp_of_mem (fun ha hb h => ?_)
    exact Or.inr ⟨⟨fun _ => hhigh _ hb, fun _ => hhigh _ ha⟩, h⟩
  · refine (hsorted.sublist (ps.takeWhile_sublist below)).imp_of_mem (fun ha hb h => ?_)
    have hla := hlow _ ha
    have hlb := hlow _ hb
    exact Or.inr ⟨by omega, h⟩
  · exact Or.inl ⟨hhigh a ha, hlow b hb⟩

/-- The replica set is the first three endpoints of the walk from the key's hash. -/
theorem replicaSet_of_walk {key : Bytes} {nodes w : List Endpoint}
    (h : Walk (hashKey key) nodes w) : replicaSet key nodes = firstThree w := by
  rw [h.unique (walk_positions _ nodes) (List.Perm.refl nodes), firstThree, replicaSet]
  simp only [clockwise_eq_getD]

theorem ownerFor_of_walk {key : Bytes} {nodes w : List Endpoint} (h : Walk (hashKey key) nodes w) :
    ownerFor key nodes = w.getD 0 {} := by
  rw [ownerFor, replicaSet_of_walk h, firstThree]

/-- The replica set of a key is the first three endpoints met on the one walk there is from
    its hash, with empty slots where there are fewer; in which order they are listed does
    not matter. -/
theorem replica_set_is_walk (key : Bytes) (nodes : List Endpoint) :
    (∃! w, Walk (hashKey key) nodes w) ∧
      (∀ w, Walk (hashKey key) nodes w → replicaSet key nodes = firstThree w) ∧
      ∀ nodes' : List Endpoint, nodes'.Perm nodes →
        replicaSet key nodes' = replicaSet key nodes ∧
        ownerFor key nodes' = ownerFor key nodes := by
  have hwalk := walk_positions (hashKey key) nodes
  refine ⟨⟨_, hwalk, fun v hv => hv.unique hwalk (List.Perm.refl nodes)⟩,
    fun w hw => replicaSet_of_walk hw, fun nodes' hperm => ?_⟩
  -- A walk of the one list is a walk of the other.
  have hwalk' : Walk (hashKey key) nodes' _ := ⟨hwalk.perm.trans hperm.symm, hwalk.ordered⟩
  have hset : replicaSet key nodes' = replicaSet key nodes := by
    rw [replicaSet_of_walk hwalk', replicaSet_of_walk hwalk]
  exact ⟨hset, by rw [ownerFor, ownerFor, hset]⟩

/-- A key of two gateways that list three members in different orders. -/
theorem replica_set_is_walk_reversed :
    replicaSet [1] [⟨3, 1⟩, ⟨1, 1⟩, ⟨2, 1⟩] = replicaSet [1] [⟨2, 1⟩, ⟨1, 1⟩, ⟨3, 1⟩] :=
  ((replica_set_is_walk [1] [⟨2, 1⟩, ⟨1, 1⟩, ⟨3, 1⟩]).2.2 [⟨3, 1⟩, ⟨1, 1⟩, ⟨2, 1⟩] (by decide)).1

/-- Without an endpoint a key's walk is the old one without it. So its owner stays unless it
    was that endpoint, and then it is the second of the old walk; a new endpoint takes a key
    over or leaves it where it was. -/
theorem removal_moves_only_its_own (key : Bytes) (nodes : List Endpoint) (x : Endpoint) :
    (x ≠ ownerFor key nodes → ownerFor key (nodes.erase x) = ownerFor key nodes) ∧
      (x = ownerFor key nodes → 2 ≤ nodes.length →
        ownerFor key (nodes.erase x) = (replicaSet key nodes).second) ∧
      (∀ w, Walk (hashKey key) nodes w → replicaSet key (nodes.erase x) = firstThree (w.erase x)) ∧
      ∀ y, ownerFor key (y :: nodes) = ownerFor key nodes ∨ ownerFor key (y :: nodes) = y := by
  have hwalk := walk_positions (hashKey key) nodes
  generalize (positions nodes).rotate (start (positions nodes) (hashKey key)) = w at hwalk
  have hkeep : ∀ {nodes w : List Endpoint}, Walk (hashKey key) nodes w → ∀ z,
      z ≠ ownerFor key nodes → ownerFor key (nodes.erase z) = ownerFor key nodes := by
    intro nodes w hw z hne
    rw [ownerFor_of_walk hw] at hne ⊢
    rw [ownerFor_of_walk (hw.erase z)]
    cases w with
    | nil => rfl
    | cons a as =>
      have haz : (a == z) = false := beq_eq_false_iff_ne.mpr (fun h => hne h.symm)
      rw [List.erase_cons_tail (by simpa using haz)]
      rfl
  refine ⟨hkeep hwalk x, fun howner hlen => ?_, fun v hv => replicaSet_of_walk (hv.erase x),
    fun y => ?_⟩
  · rw [ownerFor_of_walk hwalk] at howner
    rw [ownerFor_of_walk (hwalk.erase x), replicaSet_of_walk hwalk, firstThree]
    cases w with
    | nil =>
      have hnil := hwalk.perm.length_eq
      rw [List.length_nil] at hnil
      omega
    | cons a as =>
      rw [show x = a from howner, List.erase_cons_head]
      rfl
  · by_cases howner : y = ownerFor key (y :: nodes)
    · exact Or.inr howner.symm
    · left
      have h := hkeep (walk_positions (hashKey key) (y :: nodes)) y howner
      rw [List.erase_cons_head] at h
      exact h.symm

/-- The owner among three members leaves, and the second of the walk takes its keys over. -/
theorem removal_moves_only_its_own_owner :
    ownerFor [1] [⟨1, 1⟩, ⟨2, 1⟩, ⟨3, 1⟩] = ⟨2, 1⟩ ∧
      ownerFor [1] ([⟨1, 1⟩, ⟨2, 1⟩, ⟨3, 1⟩].erase ⟨2, 1⟩) =
        (replicaSet [1] [⟨1, 1⟩, ⟨2, 1⟩, ⟨3, 1⟩]).second :=
  ⟨by decide +kernel,
    (removal_moves_only_its_own [1] [⟨1, 1⟩, ⟨2, 1⟩, ⟨3, 1⟩] ⟨2, 1⟩).2.1
    (by decide +kernel) (by decide)⟩

end Ring

end Tautq
