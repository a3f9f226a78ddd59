import Mathlib.Data.Nat.Digits.Lemmas

/-!
Positional numerals over an alphabet of glyphs, most significant digit first.
Zero is the one numeral that begins with the glyph of zero, and reading a
numeral back gives the number it stands for.
-/

namespace Numeral

variable {α : Type}

def numeral (glyph : Nat → α) (base n : Nat) : List α :=
  if n = 0 then [glyph 0] else ((Nat.digits base n).map glyph).reverse

def readDigit (worth : α → Option Nat) (base : Nat) (value : Option Nat) (c : α) : Option Nat :=
  do pure (base * (← value) + (← worth c))

/-- Reads from the left; a character that is no digit spoils the numeral. -/
def readNumeral (worth : α → Option Nat) (base : Nat) (text : List α) : Option Nat :=
  text.foldl (readDigit worth base) (some 0)

variable {glyph : Nat → α} {worth : α → Option Nat} {base : Nat}

theorem read_digits (known : ∀ d < base, worth (glyph d) = some d) (digits : List Nat)
    (small : ∀ d ∈ digits, d < base) :
    readNumeral worth base (digits.map glyph).reverse = some (Nat.ofDigits base digits) := by
  induction digits with
  | nil => rfl
  | cons d rest ih =>
      have value := ih fun e member => small e (List.mem_cons_of_mem _ member)
      rw [readNumeral] at value
      rw [readNumeral, List.map_cons, List.reverse_cons, List.foldl_append, value, List.foldl_cons,
        List.foldl_nil, readDigit, known d (small d List.mem_cons_self), Nat.ofDigits_cons]
      simp only [Option.pure_def, Option.bind_eq_bind, Option.bind_some, Nat.add_comm]

theorem read_numeral (big : 1 < base) (known : ∀ d < base, worth (glyph d) = some d) (n : Nat) :
    readNumeral worth base (numeral glyph base n) = some n := by
  by_cases zero : n = 0
  · rw [numeral, if_pos zero, zero]
    exact read_digits known [0] (by simpa using Nat.lt_trans Nat.zero_lt_one big)
  · rw [numeral, if_neg zero, read_digits known _ fun d member => Nat.digits_lt_base big member,
      Nat.ofDigits_digits]

/-- No leading zero. -/
theorem numeral_first (big : 1 < base) (known : ∀ d < base, worth (glyph d) = some d) {n : Nat}
    (positive : n ≠ 0) : (numeral glyph base n).head? ≠ some (glyph 0) := by
  have some_digit : Nat.digits base n ≠ [] := Nat.digits_ne_nil_iff_ne_zero.mpr positive
  have last := Nat.getLast_digit_ne_zero base positive
  have small := Nat.digits_lt_base big (List.getLast_mem some_digit)
  rw [numeral, if_neg positive, List.head?_reverse, List.getLast?_map, List.getLast?_eq_some_getLast some_digit]
  intro same
  rw [Option.map_some, Option.some.injEq] at same
  have worths := known _ small
  rw [same, known 0 (Nat.lt_trans Nat.zero_lt_one big), Option.some.injEq] at worths
  exact last worths.symm

theorem map_numeral {β : Type} (f : α → β) (glyph : Nat → α) (base n : Nat) :
    (numeral glyph base n).map f = numeral (fun d => f (glyph d)) base n := by
  rw [numeral, numeral]
  split
  · rfl
  · rw [List.map_reverse, List.map_map, Function.comp_def]

theorem numeral_congr {left right : Nat → α} (big : 1 < base)
    (same : ∀ d < base, left d = right d) (n : Nat) : numeral left base n = numeral right base n := by
  rw [numeral, numeral, same 0 (Nat.lt_trans Nat.zero_lt_one big),
    List.map_congr_left fun d member => same d (Nat.digits_lt_base big member)]

/-- The decimal numerals of the standard library. -/
theorem toDigits_ten (n : Nat) : Nat.toDigits 10 n = numeral Nat.digitChar 10 n := by
  induction n using Nat.strongRecOn with
  | ind n ih =>
      rw [Nat.toDigits_eq_if (by decide), numeral]
      by_cases zero : n = 0
      · rw [if_pos zero, if_pos (by omega), zero]
      · rw [if_neg zero, Nat.digits_def' (by decide) (Nat.pos_of_ne_zero zero), List.map_cons, List.reverse_cons]
        by_cases short : n < 10
        · rw [if_pos short, Nat.div_eq_of_lt short, Nat.digits_zero, Nat.mod_eq_of_lt short]
          rfl
        · rw [if_neg short, ih (n / 10) (by omega), numeral, if_neg (by omega)]

end Numeral
