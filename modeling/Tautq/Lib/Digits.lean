import Mathlib.Data.Nat.Digits.Defs
import Mathlib.Data.List.TakeWhile
import Mathlib.Data.UInt

/-!
# Decimal Numerals as Byte Strings

Numbers padded with zeros to a fixed width are ordered as byte strings the way they
are ordered as numbers, so a list of them can be sorted without being read. Numbers
without padding are read back digit by digit.

## Main definitions

* `pad`: A number in decimal, padded with zeros.
* `decimal`: A number of at most twenty digits, without padding.
* `parseU64`: The number at the start of a text, if it fits 64 bits.

## Theorems

* `pad_lt`: Padded numbers are ordered as numbers.
* `append_lt_append`: And stay so with anything after them.
* `parseU64_decimal`: A number is read back.
-/

namespace Tautq

/-- The lowest digits of a number, the highest first. -/
def pad : Nat → Nat → List UInt8
  | 0, _ => []
  | w + 1, n => UInt8.ofNat (48 + n / 10 ^ w % 10) :: pad w n

@[simp] theorem length_pad (w n : Nat) : (pad w n).length = w := by
  induction w with
  | zero => rfl
  | succ w ih => simp [pad, ih]

theorem toNat_digit (d : Nat) : (UInt8.ofNat (48 + d % 10)).toNat = 48 + d % 10 := by
  rw [UInt8.toNat_ofNat']
  omega

theorem pad_lt_of_mod {w n m : Nat} (h : n % 10 ^ w < m % 10 ^ w) : pad w n < pad w m := by
  induction w with
  | zero =>
    rw [Nat.pow_zero, Nat.mod_one, Nat.mod_one] at h
    omega
  | succ w ih =>
    rw [Nat.mod_pow_succ, Nat.mod_pow_succ] at h
    have hpos : 0 < 10 ^ w := Nat.pow_pos (by omega)
    rw [pad, pad, List.cons_lt_cons_iff, UInt8.lt_iff_toNat_lt, ← UInt8.toNat_inj, toNat_digit,
      toNat_digit]
    -- The highest digit decides, or the rest does.
    rcases Nat.lt_trichotomy (n / 10 ^ w % 10) (m / 10 ^ w % 10) with hlt | heq | hgt
    · exact Or.inl (by omega)
    · refine Or.inr ⟨by omega, ih ?_⟩
      rw [heq] at h
      omega
    · have hle := Nat.mul_le_mul_left (10 ^ w) (Nat.succ_le_of_lt hgt)
      have hn := Nat.mod_lt n hpos
      have hm := Nat.mod_lt m hpos
      rw [Nat.mul_succ] at hle
      omega

/-- Padded numbers are ordered as numbers. -/
theorem pad_lt {w n m : Nat} (h : n < m) (hm : m < 10 ^ w) : pad w n < pad w m := by
  apply pad_lt_of_mod
  rw [Nat.mod_eq_of_lt hm, Nat.mod_eq_of_lt (h.trans hm)]
  exact h

/-- Of strings of one length, the first difference decides, whatever follows. -/
theorem append_lt_append {a b : List UInt8} (h : a < b) (hlen : a.length = b.length)
    (c d : List UInt8) : a ++ c < b ++ d := by
  induction a generalizing b with
  | nil =>
    rw [List.length_eq_zero_iff.mp hlen.symm] at h
    exact absurd h (List.lt_irrefl _)
  | cons x a ih =>
    cases b with
    | nil => cases hlen
    | cons y b =>
      rw [List.cons_append, List.cons_append, List.cons_lt_cons_iff]
      rcases List.cons_lt_cons_iff.mp h with hxy | ⟨hxy, hab⟩
      · exact Or.inl hxy
      · exact Or.inr ⟨hxy, ih hab (Nat.succ.inj hlen)⟩

/-- A number of at most twenty digits. -/
def decimal (n : Nat) : List UInt8 :=
  match (pad 20 n).dropWhile (· = 48) with
  | [] => [48]
  | ds => ds

def isSpace (b : UInt8) : Bool :=
  b = 32 || (9 ≤ b && b ≤ 13)

def isDigit (b : UInt8) : Bool :=
  48 ≤ b && b ≤ 57

/-- The number digits denote, read on from another one. -/
def digitsFrom (v : Nat) (ds : List UInt8) : Nat :=
  ds.foldl (fun v d => 10 * v + (d.toNat - 48)) v

/-- The number at the start of a text. -/
def parseU64 (text : List UInt8) : Option Nat :=
  match (text.dropWhile isSpace).takeWhile isDigit with
  | [] => none
  | ds => if digitsFrom 0 ds < 2 ^ 64 then some (digitsFrom 0 ds) else none

theorem digitsFrom_pad (w v n : Nat) : digitsFrom v (pad w n) = v * 10 ^ w + n % 10 ^ w := by
  induction w generalizing v with
  | zero => simp [pad, digitsFrom, Nat.mod_one]
  | succ w ih =>
    have hstep : digitsFrom v (pad (w + 1) n) = digitsFrom (10 * v + n / 10 ^ w % 10)
        (pad w n) := by
      rw [pad, digitsFrom, List.foldl_cons, toNat_digit]
      rw [Nat.add_sub_cancel_left]
      rfl
    rw [hstep, ih, Nat.mod_pow_succ, Nat.add_mul, Nat.pow_succ]
    ring

theorem digitsFrom_dropWhile (ds : List UInt8) :
    digitsFrom 0 (ds.dropWhile (· = 48)) = digitsFrom 0 ds := by
  induction ds with
  | nil => rfl
  | cons d ds ih =>
    by_cases hd : d = 48
    · rw [List.dropWhile_cons_of_pos (by simpa using hd), ih, hd]
      rfl
    · rw [List.dropWhile_cons_of_neg (by simpa using hd)]

theorem isDigit_of_mem_pad {w n : Nat} {d : UInt8} (h : d ∈ pad w n) : isDigit d = true := by
  induction w with
  | zero => cases h
  | succ w ih =>
    rcases List.mem_cons.mp h with rfl | h
    · have := toNat_digit (n / 10 ^ w)
      simp only [isDigit, Bool.and_eq_true, decide_eq_true_eq, UInt8.le_iff_toNat_le, this]
      constructor
      · change 48 ≤ _
        omega
      · change _ ≤ 57
        omega
    · exact ih h

theorem decimal_ne_nil (n : Nat) : decimal n ≠ [] := by
  unfold decimal
  split
  · simp
  · assumption

theorem isDigit_of_mem_decimal {n : Nat} {d : UInt8} (h : d ∈ decimal n) : isDigit d = true := by
  unfold decimal at h
  split at h
  · rw [List.mem_singleton.mp h]
    rfl
  · exact isDigit_of_mem_pad ((List.dropWhile_suffix _).subset h)

theorem length_decimal_le (n : Nat) : (decimal n).length ≤ 20 := by
  unfold decimal
  split
  · simp
  · refine (List.dropWhile_suffix _).length_le.trans ?_
    rw [length_pad]

/-- The digits of a number denote it. -/
theorem digitsFrom_decimal {n : Nat} (hn : n < 10 ^ 20) : digitsFrom 0 (decimal n) = n := by
  have hvalue := digitsFrom_dropWhile (pad 20 n)
  rw [digitsFrom_pad, Nat.zero_mul, Nat.zero_add, Nat.mod_eq_of_lt hn] at hvalue
  unfold decimal
  generalize (pad 20 n).dropWhile (· = 48) = ds at hvalue
  cases ds with
  | nil =>
    rw [← hvalue]
    rfl
  | cons d ds => exact hvalue

/-- A number is read back from a line of its own. -/
theorem parseU64_decimal {n : Nat} (hn : n < 2 ^ 64) : parseU64 (decimal n ++ [10]) = some n := by
  have hne := decimal_ne_nil n
  have hdigits : ∀ d ∈ decimal n, isDigit d = true := fun d hd => isDigit_of_mem_decimal hd
  have hvalue : digitsFrom 0 (decimal n) = n := digitsFrom_decimal (by omega)
  have hspace : (decimal n ++ [10]).dropWhile isSpace = decimal n ++ [10] := by
    cases hd : decimal n with
    | nil => exact absurd hd hne
    | cons d ds =>
      have hdig := hdigits d (by rw [hd]; exact List.mem_cons_self)
      rw [List.cons_append, List.dropWhile_cons_of_neg]
      intro hsp
      simp only [isDigit, isSpace, Bool.and_eq_true, Bool.or_eq_true, decide_eq_true_eq] at hdig hsp
      grind
  have htake : (decimal n ++ [10]).takeWhile isDigit = decimal n := by
    rw [List.takeWhile_append_of_pos hdigits]
    simp [isDigit]
  rw [parseU64, hspace, htake]
  cases hd : decimal n with
  | nil => exact absurd hd hne
  | cons d ds =>
    rw [hd] at hvalue
    simp only [hvalue, if_pos hn]

end Tautq
