import KehindeKernel.Shell
import KehindeKernel.Lib.Numeral

/-!
Numbers on the UART. Both boards print them with the same code: a first loop
stores the digits, least significant first, in a buffer of twenty words, and a
second one sends them back to front. `size_t` and `uint64_t` are 64-bit words.
-/

namespace KehindeKernel

open Outcome Numeral

/-- `print_helper`: the byte it passes to `uart_putc`. -/
def printHelper (val : UInt64) : UInt8 := (if val < 10 then 48 + val else 65 + val - 10).toUInt8

/-- `for (size_t i = 0; val != 0; i++)` -/
def splitDigits (base : UInt64) :
    Nat → UInt64 → List UInt64 → UInt64 → UInt64 → Run (List UInt64 × UInt64)
  | 0, _, _, _, _ => throw .hang
  | trips + 1, i, valueBuffer, counter, val =>
      if val ≠ 0 then do
        let valueBuffer ← storeAt valueBuffer i.toNat (val % base)
        splitDigits base trips (i + 1) valueBuffer (counter + 1) (val / base)
      else pure (valueBuffer, counter)

/-- `for (size_t i = 0; i != counter; i++)` -/
def emitDigits (valueBuffer : List UInt64) (counter : UInt64) (place : UInt64 → UInt64) :
    Nat → UInt64 → List UInt8 → Run (List UInt8)
  | 0, _, _ => throw .hang
  | trips + 1, i, sent =>
      if i ≠ counter then do
        let digit ← fetch valueBuffer[(place i).toNat]?
        emitDigits valueBuffer counter place trips (i + 1) (sent ++ [printHelper digit])
      else pure sent

/-- `uart_put_hex`, after what was sent before; the buffer starts uninitialised. -/
def uartPutHex (trips : Nat) (valueBuffer : Vector UInt64 20) (val : UInt64) (sent : List UInt8) :
    Run (List UInt8) :=
  if val = 0 then pure (sent ++ [48])
  else do
    let (valueBuffer, counter) ← splitDigits 16 trips 0 valueBuffer.toList 0 val
    emitDigits valueBuffer counter (fun i => counter - 1 - i) trips 0 (sent ++ ascii "0x")

/-- `uart_put_uint` -/
def uartPutUint (trips : Nat) (valueBuffer : Vector UInt64 20) (val : UInt64) (sent : List UInt8) :
    Run (List UInt8) :=
  if val = 0 then pure (sent ++ [48])
  else do
    let (valueBuffer, counter) ← splitDigits 10 trips 0 valueBuffer.toList 0 val
    emitDigits valueBuffer counter (fun i => counter - i - 1) trips 0 sent

def glyphs : List UInt8 := ascii "0123456789ABCDEF"

def digitGlyph (d : Nat) : UInt8 := glyphs.getD d 0

def digitWorth (c : UInt8) : Option Nat := glyphs.idxOf? c

/-- An upper-case hexadecimal numeral; only zero goes without its prefix. -/
def hexText (n : Nat) : List UInt8 :=
  if n = 0 then ascii "0" else ascii "0x" ++ numeral digitGlyph 16 n

def readHex (text : List UInt8) : Option Nat :=
  readNumeral digitWorth 16 (if ascii "0x" <+: text then text.drop 2 else text)

theorem glyph_worth : ∀ d < 16, digitWorth (digitGlyph d) = some d := by decide

theorem glyph_worth_ten (d : Nat) (small : d < 10) : digitWorth (digitGlyph d) = some d :=
  glyph_worth d (Nat.lt_trans small (by decide))

theorem printHelper_glyph : ∀ d < 16, printHelper (UInt64.ofNat d) = digitGlyph d := by decide

theorem digitChar_glyph : ∀ d < 10, UInt8.ofNat (Nat.digitChar d).toNat = digitGlyph d := by decide

theorem ascii_toString (n : Nat) : ascii (toString n) = numeral digitGlyph 10 n := by
  rw [ascii, Nat.toString_eq_repr, Nat.toList_repr, toDigits_ten, map_numeral,
    numeral_congr (by decide) digitChar_glyph]

/-- The digits fit in the twenty words from base ten on. -/
theorem digits_fit {base : Nat} (big : 10 ≤ base) (val : UInt64) :
    (Nat.digits base val.toNat).length ≤ 20 := by
  rw [Nat.digits_length_le_iff (Nat.lt_of_lt_of_le (by decide) big)]
  calc
    val.toNat < 2 ^ 64 := val.toNat_lt
    _ ≤ 10 ^ 20 := by decide
    _ ≤ base ^ 20 := Nat.pow_le_pow_left big 20

theorem toNat_nonzero {val : UInt64} (nonzero : val ≠ 0) : 0 < val.toNat :=
  Nat.pos_of_ne_zero fun zero => nonzero (UInt64.toNat_inj.mp zero)

/-- The digits go into the words after those already filled. -/
theorem splitDigits_spec (base : UInt64) (big : 1 < base.toNat) (trips : Nat) (filled room : List UInt64)
    (val : UInt64) (enough : (Nat.digits base.toNat val.toNat).length < trips)
    (fits : (Nat.digits base.toNat val.toNat).length ≤ room.length)
    (counted : filled.length + room.length < UInt64.size) :
    ∃ rest, splitDigits base trips (UInt64.ofNat filled.length) (filled ++ room)
        (UInt64.ofNat filled.length) val =
      .ok (filled ++ (Nat.digits base.toNat val.toNat).map UInt64.ofNat ++ rest,
        UInt64.ofNat (filled.length + (Nat.digits base.toNat val.toNat).length)) := by
  induction trips generalizing filled room val with
  | zero => exact absurd enough (Nat.not_lt_zero _)
  | succ trips ih =>
      by_cases zero : val = 0
      · exact ⟨room, by simp [splitDigits, zero]⟩
      · have digits : Nat.digits base.toNat val.toNat =
            (val % base).toNat :: Nat.digits base.toNat (val / base).toNat := by
          rw [Nat.digits_def' big (toNat_nonzero zero), UInt64.toNat_mod, UInt64.toNat_div]
        rw [digits, List.length_cons] at enough fits
        cases room with
        | nil => exact absurd fits (Nat.not_succ_le_zero _)
        | cons old room =>
            rw [List.length_cons] at fits counted
            have stored := storeAt_next filled room old (val % base)
            have place : (UInt64.ofNat filled.length).toNat = filled.length :=
              UInt64.toNat_ofNat_of_lt' (by omega)
            obtain ⟨rest, later⟩ := ih (filled ++ [val % base]) room (val / base) (by omega) (by omega)
              (by simp only [List.length_append, List.length_singleton]; omega)
            rw [List.length_append, List.length_singleton, UInt64.ofNat_add] at later
            refine ⟨rest, ?_⟩
            rw [splitDigits, if_pos zero, place, stored, ok_bind, digits, List.append_cons]
            refine later.trans ?_
            simp only [List.map_cons, UInt64.ofNat_toNat, List.append_assoc, List.cons_append,
              List.nil_append, List.length_cons, Nat.add_assoc, Nat.add_comm 1]

/-- From `i` on the second loop sends the digits before the last `i`, the latest
one first. -/
theorem emitDigits_spec (digits rest : List UInt64) (place : UInt64 → UInt64)
    (counted : digits.length < UInt64.size)
    (mirrors : ∀ i < digits.length, (place (UInt64.ofNat i)).toNat = digits.length - 1 - i)
    (trips left : Nat) (inside : left ≤ digits.length) (enough : left < trips) (sent : List UInt8) :
    emitDigits (digits ++ rest) (UInt64.ofNat digits.length) place trips
        (UInt64.ofNat (digits.length - left)) sent =
      .ok (sent ++ ((digits.take left).map printHelper).reverse) := by
  induction trips generalizing left sent with
  | zero => exact absurd enough (Nat.not_lt_zero _)
  | succ trips ih =>
      cases left with
      | zero => simp [emitDigits]
      | succ left =>
          have apart : UInt64.ofNat (digits.length - (left + 1)) ≠ UInt64.ofNat digits.length := by
            intro same
            have lengths := congrArg UInt64.toNat same
            rw [UInt64.toNat_ofNat_of_lt' (by omega), UInt64.toNat_ofNat_of_lt' counted] at lengths
            omega
          have held : (digits ++ rest)[left]? = some digits[left] := by
            rw [List.getElem?_append_left inside, List.getElem?_eq_getElem inside]
          have next : UInt64.ofNat (digits.length - (left + 1)) + 1 = UInt64.ofNat (digits.length - left) := by
            rw [show digits.length - left = digits.length - (left + 1) + 1 by omega, UInt64.ofNat_add]
            rfl
          rw [emitDigits, if_pos apart, mirrors _ (by omega),
            show digits.length - 1 - (digits.length - (left + 1)) = left by omega, held, fetch_some, ok_bind,
            next, ih left (by omega) (by omega), List.take_succ_eq_append_getElem inside]
          simp only [List.map_append, List.map_cons, List.map_nil, List.reverse_append, List.reverse_singleton,
            List.append_assoc]

theorem sent_numeral {base : UInt64} (low : 10 ≤ base.toNat) (high : base.toNat ≤ 16) (extra : Nat)
    (valueBuffer : Vector UInt64 20) {val : UInt64} (nonzero : val ≠ 0) (sent : List UInt8)
    (place : UInt64 → UInt64 → UInt64)
    (mirrors : ∀ counter i : Nat, counter ≤ 20 → i < counter →
      (place (UInt64.ofNat counter) (UInt64.ofNat i)).toNat = counter - 1 - i) :
    (do
      let (valueBuffer, counter) ← splitDigits base (21 + extra) 0 valueBuffer.toList 0 val
      emitDigits valueBuffer counter (place counter) (21 + extra) 0 sent) =
    .ok (sent ++ numeral digitGlyph base.toNat val.toNat) := by
  have big : 1 < base.toNat := Nat.lt_of_lt_of_le (by decide) low
  have fits := digits_fit low val
  have counted : ((Nat.digits base.toNat val.toNat).map UInt64.ofNat).length ≤ 20 := by
    rwa [List.length_map]
  obtain ⟨rest, split⟩ := splitDigits_spec base big (21 + extra) [] valueBuffer.toList val (by omega)
    (by rw [Vector.length_toList]; exact fits) (by rw [Vector.length_toList]; decide)
  rw [List.nil_append, List.nil_append, List.length_nil, Nat.zero_add,
    ← List.length_map (f := UInt64.ofNat)] at split
  have emitted := emitDigits_spec ((Nat.digits base.toNat val.toNat).map UInt64.ofNat) rest
    (place (UInt64.ofNat _)) (Nat.lt_of_le_of_lt counted (by decide))
    (fun i below => mirrors _ i counted below) (21 + extra) _ (Nat.le_refl _) (by omega) sent
  rw [Nat.sub_self, List.take_length, List.map_map] at emitted
  rw [show (0 : UInt64) = UInt64.ofNat 0 from rfl, split, ok_bind]
  refine emitted.trans ?_
  have glyphed : (Nat.digits base.toNat val.toNat).map (printHelper ∘ UInt64.ofNat) =
      (Nat.digits base.toNat val.toNat).map digitGlyph :=
    List.map_congr_left fun d member =>
      printHelper_glyph d (Nat.lt_of_lt_of_le (Nat.digits_lt_base big member) high)
  rw [numeral, if_neg (Nat.ne_of_gt (toNat_nonzero nonzero)), glyphed]

theorem hex_mirrors (counter i : Nat) (small : counter ≤ 20) (below : i < counter) :
    (UInt64.ofNat counter - 1 - UInt64.ofNat i).toNat = counter - 1 - i := by
  rw [show (1 : UInt64) = UInt64.ofNat 1 from rfl, ← UInt64.ofNat_sub (by omega),
    ← UInt64.ofNat_sub (by omega), UInt64.toNat_ofNat_of_lt' (Nat.lt_of_le_of_lt (by omega) (show 20 < _ by decide))]

theorem uint_mirrors (counter i : Nat) (small : counter ≤ 20) (below : i < counter) :
    (UInt64.ofNat counter - UInt64.ofNat i - 1).toNat = counter - 1 - i := by
  rw [show (1 : UInt64) = UInt64.ofNat 1 from rfl, ← UInt64.ofNat_sub (by omega),
    ← UInt64.ofNat_sub (by omega), Nat.sub_right_comm,
    UInt64.toNat_ofNat_of_lt' (Nat.lt_of_le_of_lt (by omega) (show 20 < _ by decide))]

section Printed

variable (valueBuffer : Vector UInt64 20) (val : UInt64) (sent : List UInt8) (extra : Nat)

theorem uartPutUint_eq : uartPutUint (21 + extra) valueBuffer val sent =
    .ok (sent ++ numeral digitGlyph 10 val.toNat) := by
  rw [uartPutUint]
  split
  next zero => rw [zero]; rfl
  next nonzero =>
    exact sent_numeral (by decide) (by decide) extra valueBuffer nonzero sent
      (fun counter i => counter - i - 1) uint_mirrors

theorem uartPutHex_eq : uartPutHex (21 + extra) valueBuffer val sent =
    .ok (sent ++ hexText val.toNat) := by
  rw [uartPutHex, hexText]
  split
  next zero => rw [zero]; rfl
  next nonzero =>
    rw [if_neg (Nat.ne_of_gt (toNat_nonzero nonzero)), ← List.append_assoc]
    exact sent_numeral (by decide) (by decide) extra valueBuffer nonzero (sent ++ ascii "0x")
      (fun counter i => counter - 1 - i) hex_mirrors

/-- The time the shell shows is what `uart_put_uint` prints. -/
theorem cmdTimer_prints {σ : Type} (t : Shell σ) :
    ∃ shown, uartPutUint (21 + extra) valueBuffer val (t.out ++ ascii "\rUptime: ") = .ok shown ∧
      (cmdTimer t val.toNat).out = shown ++ newline ++ [10] := by
  refine ⟨_, uartPutUint_eq valueBuffer val _ extra, ?_⟩
  rw [← ascii_toString]
  simp only [cmdTimer, Shell.puts, List.append_assoc]

theorem readHex_hexText (n : Nat) : readHex (hexText n) = some n := by
  rw [hexText]
  split
  next zero => rw [zero]; rfl
  next nonzero =>
    rw [readHex, if_pos (List.prefix_append _ _)]
    exact read_numeral (by decide) glyph_worth n

/-- Both printers send the numeral of any 64-bit value, without leading zeros,
and reading the digits back gives the value: no digit falls outside the buffer
and both loops end. -/
theorem numbers_printed_exact :
    uartPutUint (21 + extra) valueBuffer val sent = .ok (sent ++ ascii (toString val.toNat)) ∧
    readNumeral digitWorth 10 (ascii (toString val.toNat)) = some val.toNat ∧
    ((ascii (toString val.toNat)).head? = some 48 ↔ val = 0) ∧
    uartPutHex (21 + extra) valueBuffer val sent = .ok (sent ++ hexText val.toNat) ∧
    readHex (hexText val.toNat) = some val.toNat ∧ (hexText val.toNat)[2]? ≠ some 48 := by
  rw [ascii_toString]
  refine ⟨uartPutUint_eq valueBuffer val sent extra, read_numeral (by decide) glyph_worth_ten _, ?_,
    uartPutHex_eq valueBuffer val sent extra, readHex_hexText _, ?_⟩
  · constructor
    · intro leads
      by_contra nonzero
      exact numeral_first (by decide) glyph_worth_ten (Nat.ne_of_gt (toNat_nonzero nonzero)) leads
    · intro zero
      rw [zero]
      rfl
  · rw [hexText]
    split
    · decide
    next nonzero =>
      have first := numeral_first (by decide) glyph_worth nonzero
      rwa [List.head?_eq_getElem?] at first

end Printed

end KehindeKernel
