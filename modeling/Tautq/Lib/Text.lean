import Mathlib.Data.List.Infix
import Tautq.Lib.Digits

/-!
# Text in Byte Strings

Text protocols are read by cutting: a block ends at an empty line, a line at a line
end, a name at a colon. `cut` is the one operation behind all of them. It cuts a
string at the first place where a pattern stands.

Two facts about it carry a parser. Where it has cut, more bytes behind do not move the
cut (`cut_append`), so what was read from the start of a stream stays read. And a
text without the pattern in it is skipped as a whole (`cut_skip`), so a writer that
keeps the pattern out of its fields is read back.

## Main definitions

* `ascii`: The bytes of an ASCII string.
* `cut`: Cut at the first place where a pattern stands.
* `lines`: The lines of a text that ends its lines by CRLF.
* `scanNumber`, `strtoul`: The decimal number at the start of a text, as the C
  library reads it.

## Theorems

* `eq_of_cut`: A cut gives the parts of the string.
* `cut_append`: A cut stays where it is when the string grows.
* `cut_skip`: A part in which no occurrence starts is skipped.
* `cut_line`, `cut_block`: A line is cut off at its end, a block of lines at the empty
  line behind it.
* `lines_intercalate`: Lines that are joined are split again.
* `lines_free`: No line has a line end in it.
* `scanNumber_append`: A numeral is read as its number.
-/

namespace Tautq

/-- The bytes of an ASCII string. -/
def ascii (s : String) : List UInt8 :=
  s.toList.map fun c => UInt8.ofNat c.toNat

section Cut

variable {α : Type} [DecidableEq α] {pat s a b : List α}

/-- Cut at the first place where a pattern stands: what is before it, and what is behind. -/
def cut (pat : List α) : List α → Option (List α × List α)
  | [] => if pat = [] then some ([], []) else none
  | c :: cs =>
    if pat <+: c :: cs then some ([], (c :: cs).drop pat.length)
    else (cut pat cs).map fun p => (c :: p.1, p.2)

theorem cut_here (h : pat <+: s) : cut pat s = some ([], s.drop pat.length) := by
  cases s with
  | nil =>
    rw [List.prefix_nil.mp h]
    rfl
  | cons c cs => rw [cut, if_pos h]

theorem cut_later {c : α} {cs : List α} (h : ¬ pat <+: c :: cs) :
    cut pat (c :: cs) = (cut pat cs).map fun p => (c :: p.1, p.2) := by
  rw [cut, if_neg h]

theorem cut_self_append (pat b : List α) : cut pat (pat ++ b) = some ([], b) := by
  rw [cut_here (List.prefix_append pat b), List.drop_left]

/-- A cut gives the parts of the string. -/
theorem eq_of_cut (h : cut pat s = some (a, b)) : s = a ++ pat ++ b := by
  induction s generalizing a b with
  | nil =>
    by_cases hpat : pat = []
    · rw [cut, if_pos hpat, Option.some.injEq, Prod.mk.injEq] at h
      rw [← h.1, ← h.2, hpat]
      rfl
    · rw [cut, if_neg hpat] at h
      cases h
  | cons c cs ih =>
    by_cases hpat : pat <+: c :: cs
    · rw [cut_here hpat, Option.some.injEq, Prod.mk.injEq] at h
      rcases hpat with ⟨t, ht⟩
      rw [← ht, List.drop_left] at h
      rw [← h.1, ← h.2, ← ht]
      rfl
    · rw [cut_later hpat] at h
      rcases hcut : cut pat cs with _ | ⟨a', b'⟩
      · rw [hcut] at h
        cases h
      · rw [hcut, Option.map_some, Option.some.injEq, Prod.mk.injEq] at h
        rw [← h.1, ← h.2, ih hcut]
        rfl

/-- A cut stays where it is when the string grows. -/
theorem cut_append (h : cut pat s = some (a, b)) (x : List α) :
    cut pat (s ++ x) = some (a, b ++ x) := by
  induction s generalizing a b with
  | nil =>
    by_cases hpat : pat = []
    · rw [cut, if_pos hpat, Option.some.injEq, Prod.mk.injEq] at h
      rw [← h.1, ← h.2, hpat]
      exact cut_self_append [] x
    · rw [cut, if_neg hpat] at h
      cases h
  | cons c cs ih =>
    by_cases hpat : pat <+: c :: cs
    · rw [cut_here hpat, Option.some.injEq, Prod.mk.injEq] at h
      rw [cut_here (hpat.trans (List.prefix_append _ x)), ← h.1, ← h.2,
        List.drop_append_of_le_length hpat.length_le]
    · rw [cut_later hpat] at h
      rcases hcut : cut pat cs with _ | ⟨a', b'⟩
      · rw [hcut] at h
        cases h
      · rw [hcut, Option.map_some, Option.some.injEq, Prod.mk.injEq] at h
        -- The pattern fits behind, so at the start it had the room to stand too.
        have hlong : ¬ pat <+: c :: (cs ++ x) := by
          intro hpre
          refine hpat (List.prefix_of_prefix_length_le hpre (List.prefix_append (c :: cs) x) ?_)
          have hlen := congrArg List.length (eq_of_cut hcut)
          simp only [List.length_append] at hlen
          rw [List.length_cons]
          omega
        rw [List.cons_append, cut_later hlong, ih hcut, Option.map_some, ← h.1, ← h.2]

/-- A part in which no occurrence starts is skipped. -/
theorem cut_skip {t : List α} (h : ∀ i < a.length, ¬ pat <+: (a ++ t).drop i) :
    cut pat (a ++ t) = (cut pat t).map fun p => (a ++ p.1, p.2) := by
  induction a with
  | nil =>
    rw [List.nil_append]
    rcases cut pat t with _ | p <;> rfl
  | cons c a ih =>
    have hhead : ¬ pat <+: c :: (a ++ t) := h 0 (Nat.succ_pos _)
    rw [List.cons_append, cut_later hhead,
      ih fun i hi => h (i + 1) (Nat.succ_lt_succ hi)]
    rcases cut pat t with _ | p <;> rfl

end Cut

/-- A single byte is cut at where it first stands. -/
theorem cut_singleton {α : Type} [DecidableEq α] {c : α} {a : List α} (h : c ∉ a) (b : List α) :
    cut [c] (a ++ c :: b) = some (a, b) := by
  have hself : cut [c] (c :: b) = some ([], b) := cut_self_append [c] b
  rw [cut_skip, hself, Option.map_some, List.append_nil]
  intro i hi hpre
  rw [List.drop_append_of_le_length (Nat.le_of_lt hi), List.drop_eq_getElem_cons hi,
    List.cons_append, List.cons_prefix_cons] at hpre
  exact h (hpre.1 ▸ List.getElem_mem hi)

/-- What is before the first place of a byte does not contain it. -/
theorem not_mem_of_cut {α : Type} [DecidableEq α] {c : α} {s a b : List α}
    (h : cut [c] s = some (a, b)) : c ∉ a := by
  induction s generalizing a with
  | nil =>
    rw [cut, if_neg (by simp)] at h
    cases h
  | cons d s ih =>
    by_cases hpre : [c] <+: d :: s
    · rw [cut_here hpre, Option.some.injEq, Prod.mk.injEq] at h
      rw [← h.1]
      exact List.not_mem_nil
    · rw [cut_later hpre] at h
      rcases hcut : cut [c] s with _ | ⟨a', b'⟩
      · rw [hcut] at h
        cases h
      · rw [hcut, Option.map_some, Option.some.injEq, Prod.mk.injEq] at h
        rw [← h.1, List.mem_cons, not_or]
        refine ⟨fun hcd => hpre ?_, ih (h.2 ▸ hcut)⟩
        rw [← hcd]
        exact List.prefix_append [c] s

/-- Two texts with a separator: if one starts the other, the parts before the separator are
    the same. -/
theorem eq_of_prefix_separated {α : Type} {c : α} {a b x y : List α} (ha : c ∉ a) (hb : c ∉ b)
    (h : a ++ c :: x <+: b ++ c :: y) : a = b ∧ x <+: y := by
  induction a generalizing b with
  | nil =>
    cases b with
    | nil => exact ⟨rfl, (List.cons_prefix_cons.mp h).2⟩
    | cons d b =>
      rw [List.nil_append, List.cons_append, List.cons_prefix_cons] at h
      exact absurd (h.1 ▸ List.mem_cons_self) hb
  | cons d a ih =>
    cases b with
    | nil =>
      rw [List.nil_append, List.cons_append, List.cons_prefix_cons] at h
      exact absurd (h.1 ▸ List.mem_cons_self) ha
    | cons d' b =>
      rw [List.cons_append, List.cons_append, List.cons_prefix_cons] at h
      rcases ih (fun hc => ha (List.mem_cons_of_mem d hc))
        (fun hc => hb (List.mem_cons_of_mem d' hc)) h.2 with ⟨hab, hxy⟩
      exact ⟨by rw [h.1, hab], hxy⟩

/-- Texts that are joined, with the separator behind each. -/
theorem intercalate_append {α : Type} (sep l : List α) (ls : List (List α)) :
    sep.intercalate (l :: ls) ++ sep = l ++ sep ++ (ls.map (· ++ sep)).flatten := by
  induction ls generalizing l with
  | nil =>
    rw [List.intercalate_singleton]
    simp
  | cons l' ls ih =>
    rw [List.intercalate_cons_of_ne_nil (by simp), List.append_assoc, ih]
    simp

/-- The line end. -/
def crlf : List UInt8 := [13, 10]

theorem free_of_not_mem {l : List UInt8} (h : 13 ∉ l) : ¬ crlf <:+: l := fun hin =>
  h (hin.subset List.mem_cons_self)

/-- Two texts without a line end have none when another byte is between them. -/
theorem free_append {a b : List UInt8} {c : UInt8} (hcr : c ≠ 13) (hlf : c ≠ 10)
    (ha : ¬ crlf <:+: a) (hb : ¬ crlf <:+: b) : ¬ crlf <:+: a ++ c :: b := by
  induction a with
  | nil =>
    intro hin
    rcases List.infix_cons_iff.mp hin with hpre | hin
    · exact hcr (List.cons_prefix_cons.mp hpre).1.symm
    · exact hb hin
  | cons d a ih =>
    intro hin
    rcases List.infix_cons_iff.mp hin with hpre | hin
    · rcases List.cons_prefix_cons.mp hpre with ⟨hd, hpre⟩
      cases a with
      | nil => exact hlf (List.cons_prefix_cons.mp hpre).1.symm
      | cons d' a =>
        rw [← hd, ← (List.cons_prefix_cons.mp hpre).1] at ha
        exact ha (List.prefix_append crlf a).isInfix
    · exact ih (fun hin' => ha (hin'.trans (List.suffix_cons d a).isInfix)) hin

/-- A line end does not start in a line that has none, whatever follows the line's own. -/
theorem no_line_end {l : List UInt8} (h : ¬ crlf <:+: l) (t : List UInt8) :
    ∀ i < l.length, ¬ crlf <+: (l ++ (crlf ++ t)).drop i := by
  induction l with
  | nil =>
    intro i hi
    exact absurd hi (Nat.not_lt_zero i)
  | cons c l ih =>
    intro i hi hpre
    cases i with
    | zero =>
      rw [List.drop_zero, List.cons_append, crlf, List.cons_prefix_cons] at hpre
      cases l with
      | nil => exact absurd (List.cons_prefix_cons.mp hpre.2).1 (by decide)
      | cons d l =>
        rw [List.cons_append, List.cons_prefix_cons] at hpre
        rw [← hpre.1, ← hpre.2.1] at h
        exact h (List.prefix_append crlf l).isInfix
    | succ i =>
      exact ih (fun hin => h (hin.trans (List.suffix_cons c l).isInfix)) i
        (Nat.lt_of_succ_lt_succ hi) hpre

/-- A line is cut off at its end. -/
theorem cut_line {l : List UInt8} (h : ¬ crlf <:+: l) (t : List UInt8) :
    cut crlf (l ++ (crlf ++ t)) = some (l, t) := by
  rw [cut_skip (no_line_end h t), cut_self_append, Option.map_some, List.append_nil]

/-- A line end is skipped if no other one follows at once. -/
theorem cut_crlf {s a b : List UInt8} (hnext : ¬ crlf <+: s)
    (h : cut (crlf ++ crlf) s = some (a, b)) :
    cut (crlf ++ crlf) (crlf ++ s) = some (crlf ++ a, b) := by
  have hfirst : ¬ crlf ++ crlf <+: 13 :: 10 :: s := fun hpre =>
    hnext ((List.prefix_append_right_inj crlf).mp hpre)
  have hsecond : ¬ crlf ++ crlf <+: 10 :: s := fun hpre =>
    absurd (List.cons_prefix_cons.mp hpre).1 (by decide)
  have hboth : crlf ++ s = 13 :: 10 :: s := rfl
  rw [hboth, cut_later hfirst, cut_later hsecond, h]
  rfl

/-- A block of lines ends at the first empty line. -/
theorem cut_block {ls : List (List UInt8)} (hne : ls ≠ []) (h : ∀ l ∈ ls, ¬ crlf <:+: l ∧ l ≠ [])
    (t : List UInt8) :
    cut (crlf ++ crlf) (crlf.intercalate ls ++ (crlf ++ (crlf ++ t))) =
      some (crlf.intercalate ls, t) := by
  have hlong : ∀ {x : List UInt8}, crlf ++ crlf <+: x → crlf <+: x := fun hx =>
    (List.prefix_append crlf crlf).trans hx
  induction ls with
  | nil => exact absurd rfl hne
  | cons l ls ih =>
    rcases h l List.mem_cons_self with ⟨hfree, _⟩
    by_cases hls : ls = []
    · subst hls
      rw [List.intercalate_singleton, cut_skip fun i hi hpre =>
          no_line_end hfree (crlf ++ t) i hi (hlong hpre), ← List.append_assoc crlf crlf t,
        cut_self_append, Option.map_some, List.append_nil]
    · have hrest := ih hls fun l' hl' => h l' (List.mem_cons_of_mem l hl')
      -- The next line is not empty, so the end of this one is not the end of the block.
      have hnext : ¬ crlf <+: crlf.intercalate ls ++ (crlf ++ (crlf ++ t)) := by
        intro hpre
        cases ls with
        | nil => exact hls rfl
        | cons l' ls' =>
          rcases h l' (by simp) with ⟨hfree', hne'⟩
          have hpos : 0 < l'.length := List.length_pos_iff.mpr hne'
          by_cases hls' : ls' = []
          · subst hls'
            rw [List.intercalate_singleton] at hpre
            exact no_line_end hfree' (crlf ++ t) 0 hpos hpre
          · rw [List.intercalate_cons_of_ne_nil hls', List.append_assoc, List.append_assoc] at hpre
            exact no_line_end hfree' _ 0 hpos hpre
      rw [List.intercalate_cons_of_ne_nil hls, List.append_assoc, List.append_assoc,
        cut_skip fun i hi hpre => no_line_end hfree _ i hi (hlong hpre), cut_crlf hnext hrest,
        Option.map_some, ← List.append_assoc]

/-- The lines of a text. -/
def lines : List UInt8 → List (List UInt8)
  | [] => [[]]
  | [c] => [[c]]
  | c :: d :: rest =>
    if c = 13 ∧ d = 10 then [] :: lines rest
    else (lines (d :: rest)).modifyHead (c :: ·)

/-- A text without a line end is one line. -/
theorem lines_of_free {l : List UInt8} (h : ¬ crlf <:+: l) : lines l = [l] := by
  induction l using lines.induct with
  | case1 => rfl
  | case2 c => rfl
  | case3 c d rest hcd ih =>
    rw [hcd.1, hcd.2] at h
    exact absurd (List.prefix_append crlf rest).isInfix h
  | case4 c d rest hcd ih =>
    rw [lines, if_neg hcd, ih fun hin => h (hin.trans (List.suffix_cons c _).isInfix)]
    rfl

/-- A line is split off at its end. -/
theorem lines_append {l : List UInt8} (h : ¬ crlf <:+: l) (t : List UInt8) :
    lines (l ++ crlf ++ t) = l :: lines t := by
  induction l using lines.induct with
  | case1 => rfl
  | case2 c =>
    -- A carriage return before a line end does not end the line itself.
    have hne : ¬ (c = 13 ∧ (13 : UInt8) = 10) := fun hc => absurd hc.2 (by decide)
    change lines (c :: 13 :: 10 :: t) = _
    rw [lines, if_neg hne]
    rfl
  | case3 c d rest hcd ih =>
    rw [hcd.1, hcd.2] at h
    exact absurd (List.prefix_append crlf rest).isInfix h
  | case4 c d rest hcd ih =>
    have hrest := ih fun hin => h (hin.trans (List.suffix_cons c _).isInfix)
    simp only [List.cons_append] at hrest ⊢
    rw [lines, if_neg hcd, hrest]
    rfl

/-- Lines that are joined are split again. -/
theorem lines_intercalate {ls : List (List UInt8)} (hne : ls ≠ [])
    (h : ∀ l ∈ ls, ¬ crlf <:+: l) : lines (crlf.intercalate ls) = ls := by
  induction ls with
  | nil => exact absurd rfl hne
  | cons l ls ih =>
    have hl := h l List.mem_cons_self
    by_cases hls : ls = []
    · subst hls
      rw [List.intercalate_singleton]
      exact lines_of_free hl
    · rw [List.intercalate_cons_of_ne_nil hls, lines_append hl,
        ih hls fun l' hl' => h l' (List.mem_cons_of_mem l hl')]

/-- No line has a line end in it, and the first one is where the text starts. -/
theorem lines_free (s : List UInt8) :
    ∃ l ls, lines s = l :: ls ∧ l <+: s ∧ ∀ l' ∈ l :: ls, ¬ crlf <:+: l' := by
  have hnil : ¬ crlf <:+: [] := by decide
  induction s using lines.induct with
  | case1 => exact ⟨[], [], rfl, List.nil_prefix, by simpa using hnil⟩
  | case2 c => exact ⟨[c], [], rfl, List.prefix_refl _, by simp [crlf, List.infix_cons_iff]⟩
  | case3 c d rest hcd ih =>
    rcases ih with ⟨l, ls, heq, _, hfree⟩
    refine ⟨[], l :: ls, by rw [lines, if_pos hcd, heq], List.nil_prefix, fun l' hl' => ?_⟩
    rcases List.mem_cons.mp hl' with rfl | hl'
    · exact hnil
    · exact hfree l' hl'
  | case4 c d rest hcd ih =>
    rcases ih with ⟨l, ls, heq, hpre, hfree⟩
    refine ⟨c :: l, ls, by rw [lines, if_neg hcd, heq]; rfl, by simpa using hpre, fun l' hl' => ?_⟩
    rcases List.mem_cons.mp hl' with rfl | hl'
    · intro hin
      rcases List.infix_cons_iff.mp hin with hhere | hlater
      · -- A line end at its start would be one of the text.
        have hwhole : [13, 10] <+: c :: d :: rest := hhere.trans (by simpa using hpre)
        simp only [List.cons_prefix_cons, List.nil_prefix, and_true] at hwhole
        exact hcd ⟨hwhole.1.symm, hwhole.2.symm⟩
      · exact hfree l List.mem_cons_self hlater
    · exact hfree l' (List.mem_cons_of_mem l hl')

/-- The sign and the magnitude of the decimal number at the start of a text. -/
def scanNumber (s : List UInt8) : Option (Bool × Nat) :=
  let s := s.dropWhile isSpace
  let ds := (if s.head? = some 43 ∨ s.head? = some 45 then s.tail else s).takeWhile isDigit
  if ds = [] then none else some (s.head? = some 45, digitsFrom 0 ds)

/-- A number of 64 bits with a sign: a minus negates it modulo `2 ^ 64`. -/
def signed (neg : Bool) (n : Nat) : Nat :=
  if neg then (2 ^ 64 - n) % 2 ^ 64 else n

/-- The number at the start of a text: zero if there is none, the greatest if it is too great. -/
def strtoul (s : List UInt8) : Nat :=
  match scanNumber s with
  | none => 0
  | some (neg, n) => if 2 ^ 64 ≤ n then 2 ^ 64 - 1 else signed neg n

/-- A numeral is read as its number, up to the first byte that is no digit. -/
theorem scanNumber_append {ds t : List UInt8} (hne : ds ≠ []) (hds : ∀ d ∈ ds, isDigit d = true)
    (ht : t.takeWhile isDigit = []) : scanNumber (ds ++ t) = some (false, digitsFrom 0 ds) := by
  cases ds with
  | nil => exact absurd rfl hne
  | cons d ds =>
    have hd := hds d List.mem_cons_self
    simp only [isDigit, Bool.and_eq_true, decide_eq_true_eq] at hd
    have hspace : (d :: (ds ++ t)).dropWhile isSpace = d :: (ds ++ t) := by
      refine List.dropWhile_cons_of_neg ?_
      simp only [isSpace, Bool.or_eq_true, Bool.and_eq_true, decide_eq_true_eq]
      grind
    have hplus : d ≠ 43 := by grind
    have hminus : d ≠ 45 := by grind
    have hdigits : (d :: (ds ++ t)).takeWhile isDigit = d :: ds := by
      rw [← List.cons_append, List.takeWhile_append_of_pos hds, ht, List.append_nil]
    simp only [scanNumber, List.cons_append, hspace, List.head?_cons, Option.some.injEq, hplus,
      hminus, or_self, if_false, hdigits, reduceCtorEq, decide_false]

end Tautq
