import Mathlib.Algebra.Group.Nat.Defs
import Mathlib.Algebra.GroupWithZero.Nat
import Mathlib.Data.List.Basic

/-!
# Byte Strings at Offsets

A format that is read by offsets is easiest to reason about as a statement about
where bytes sit. `Sits s b off` says that `b` has the bytes `s` from offset `off`
on. A layout is then a concatenation, and `sits_append` splits it into its fields,
each at its own offset. `sits_leBytes` turns a little-endian field into what the
reader does: a bounds check, and a number that is read.

Both directions of a codec come out of these equivalences at once. What a reader
accepts is what sits at its offset, so a round trip and the rejection of a cut
string are the same fact.

## Main definitions

* `leBytes`, `leNat`: Little-endian numbers of a given width.
* `leAt`: The number read at an offset.
* `Sits`: A byte string has another one at an offset.

## Theorems

* `leNat_leBytes`, `leBytes_leNat`: Writing and reading a number are inverse.
* `sits_append`: A concatenation sits where its parts do.
* `sits_leBytes`: A number sits where it is read.
* `sits_zero`: What sits at the start is a prefix.
-/

namespace Tautq

/-- The lowest bytes of a number, the lowest first. -/
def leBytes : Nat → Nat → List UInt8
  | 0, _ => []
  | w + 1, n => UInt8.ofNat n :: leBytes w (n / 256)

/-- The number a little-endian byte string denotes. -/
def leNat : List UInt8 → Nat
  | [] => 0
  | b :: bs => b.toNat + 256 * leNat bs

/-- The number of `w` bytes at an offset. -/
def leAt (w : Nat) (b : List UInt8) (off : Nat) : Nat :=
  leNat ((b.drop off).take w)

/-- The bytes `s` are those of `b` from an offset on. -/
def Sits (s b : List UInt8) (off : Nat) : Prop :=
  off + s.length ≤ b.length ∧ (b.drop off).take s.length = s

@[simp]
theorem length_leBytes (w n : Nat) : (leBytes w n).length = w := by
  induction w generalizing n with
  | zero => rfl
  | succ w ih => rw [leBytes, List.length_cons, ih]

theorem leNat_leBytes {w n : Nat} (h : n < 256 ^ w) : leNat (leBytes w n) = n := by
  induction w generalizing n with
  | zero =>
    rw [Nat.pow_zero] at h
    rw [leBytes, leNat]
    omega
  | succ w ih =>
    have hdiv : n / 256 < 256 ^ w := by
      rw [Nat.pow_succ] at h
      exact Nat.div_lt_of_lt_mul (by rw [Nat.mul_comm]; exact h)
    rw [leBytes, leNat, ih hdiv, UInt8.toNat_ofNat']
    omega

theorem leBytes_leNat (bs : List UInt8) : leBytes bs.length (leNat bs) = bs := by
  induction bs with
  | nil => rfl
  | cons b bs ih =>
    have hb := b.toNat_lt
    have hhead : UInt8.ofNat (b.toNat + 256 * leNat bs) = b := by
      apply UInt8.toNat_inj.mp
      rw [UInt8.toNat_ofNat']
      omega
    have htail : (b.toNat + 256 * leNat bs) / 256 = leNat bs := by omega
    rw [List.length_cons, leNat, leBytes, hhead, htail, ih]

theorem leNat_lt (bs : List UInt8) : leNat bs < 256 ^ bs.length := by
  induction bs with
  | nil => simp [leNat]
  | cons b bs ih =>
    have hb := b.toNat_lt
    rw [List.length_cons, leNat, Nat.pow_succ]
    omega

theorem leAt_lt (w : Nat) (b : List UInt8) (off : Nat) : leAt w b off < 256 ^ w := by
  have hlt := leNat_lt ((b.drop off).take w)
  have hle : ((b.drop off).take w).length ≤ w := List.length_take_le _ _
  exact Nat.lt_of_lt_of_le hlt (Nat.pow_le_pow_right (by decide) hle)

section Sits

variable {s t b : List UInt8} {off : Nat}

theorem sits_append : Sits (s ++ t) b off ↔ Sits s b off ∧ Sits t b (off + s.length) := by
  simp only [Sits, List.length_append, List.take_add, List.drop_drop]
  constructor
  · rintro ⟨hle, heq⟩
    have hlen : ((b.drop off).take s.length).length = s.length := by
      rw [List.length_take, List.length_drop]
      omega
    rcases List.append_inj heq hlen with ⟨hs, ht⟩
    exact ⟨⟨by omega, hs⟩, by omega, ht⟩
  · rintro ⟨⟨hle, hs⟩, hle', ht⟩
    exact ⟨by omega, by rw [hs, ht]⟩

/-- A number sits where it is read. -/
theorem sits_leBytes {w n : Nat} (h : n < 256 ^ w) :
    Sits (leBytes w n) b off ↔ off + w ≤ b.length ∧ leAt w b off = n := by
  rw [Sits, length_leBytes, leAt]
  refine and_congr_right (fun hle => ⟨fun heq => ?_, fun heq => ?_⟩)
  · rw [heq, leNat_leBytes h]
  · have hlen : ((b.drop off).take w).length = w := by
      rw [List.length_take, List.length_drop]
      omega
    have hback := leBytes_leNat ((b.drop off).take w)
    rw [hlen, heq] at hback
    exact hback.symm

/-- What sits at the start is a prefix. -/
theorem sits_zero : Sits s b 0 ↔ s <+: b := by
  rw [Sits, List.drop_zero, Nat.zero_add, List.prefix_iff_eq_take]
  constructor
  · rintro ⟨_, heq⟩
    exact heq.symm
  · intro heq
    refine ⟨?_, heq.symm⟩
    have hlen := congrArg List.length heq
    rw [List.length_take] at hlen
    omega

end Sits

end Tautq
