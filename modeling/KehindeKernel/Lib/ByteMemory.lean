import Mathlib.Data.BitVec

/-!
Byte memory under 64-bit addresses that wrap around, with little-endian stores
and loads of 64-bit words at any alignment. A frame is an array of words behind
a base address; its words do not overlap as long as the frame does not reach
around the whole address space.
-/

namespace ByteMemory

abbrev Memory := BitVec 64 → BitVec 8

def store64 (memory : Memory) (at_ value : BitVec 64) : Memory := fun a =>
  if (a - at_).toNat < 8 then value.extractLsb' (8 * (a - at_).toNat) 8 else memory a

def load64 (memory : Memory) (at_ : BitVec 64) : BitVec 64 :=
  let byte := fun i : Nat => memory (at_ + BitVec.ofNat 64 i)
  byte 7 ++ byte 6 ++ byte 5 ++ byte 4 ++ byte 3 ++ byte 2 ++ byte 1 ++ byte 0

/-- The word with number `j` of the frame at `base`. -/
def wordAt (base : BitVec 64) (j : Nat) : BitVec 64 := base + BitVec.ofNat 64 (8 * j)

theorem offset_toNat (at_ : BitVec 64) {i : Nat} (small : i < 2 ^ 64) :
    (at_ + BitVec.ofNat 64 i - at_).toNat = i := by
  rw [BitVec.add_comm, BitVec.add_sub_cancel, BitVec.toNat_ofNat, Nat.mod_eq_of_lt small]

theorem load64_congr {left right : Memory} {at_ : BitVec 64}
    (same : ∀ i < 8, left (at_ + BitVec.ofNat 64 i) = right (at_ + BitVec.ofNat 64 i)) :
    load64 left at_ = load64 right at_ := by
  simp only [load64, same 0 (by decide), same 1 (by decide), same 2 (by decide), same 3 (by decide),
    same 4 (by decide), same 5 (by decide), same 6 (by decide), same 7 (by decide)]

theorem join_byte (value : BitVec 64) (n k : Nat) :
    value.extractLsb' (8 * (k + 1)) n ++ value.extractLsb' (8 * k) 8 = value.extractLsb' (8 * k) (n + 8) :=
  BitVec.extractLsb'_append_extractLsb'_eq_extractLsb' (Nat.mul_succ 8 k)

theorem load64_store64 (memory : Memory) (at_ value : BitVec 64) :
    load64 (store64 memory at_ value) at_ = value := by
  have byte : ∀ i < 8, store64 memory at_ value (at_ + BitVec.ofNat 64 i) =
      value.extractLsb' (8 * i) 8 := by
    intro i small
    have offset := offset_toNat at_ (Nat.lt_trans small (by decide : 8 < 2 ^ 64))
    rw [store64, offset, if_pos small]
  simp only [load64, byte 0 (by decide), byte 1 (by decide), byte 2 (by decide), byte 3 (by decide),
    byte 4 (by decide), byte 5 (by decide), byte 6 (by decide), byte 7 (by decide)]
  rw [join_byte value 8 6, join_byte value _ 5, join_byte value _ 4, join_byte value _ 3,
    join_byte value _ 2, join_byte value _ 1, join_byte value _ 0]
  exact BitVec.extractLsb'_eq_self

theorem store64_outside (memory : Memory) (at_ value a : BitVec 64) (outside : 8 ≤ (a - at_).toNat) :
    store64 memory at_ value a = memory a :=
  if_neg (Nat.not_lt.mpr outside)

theorem wordAt_add (base : BitVec 64) (j i : Nat) :
    wordAt base j + BitVec.ofNat 64 i = base + BitVec.ofNat 64 (8 * j + i) := by
  rw [wordAt, BitVec.add_assoc, ← BitVec.ofNat_add]

/-- Bytes of different words of a frame lie at least a word apart. -/
theorem wordAt_apart (base : BitVec 64) {i j k : Nat} (different : i ≠ j) (first : 8 * i + 8 < 2 ^ 64)
    (second : 8 * j + 8 < 2 ^ 64) (inside : k < 8) :
    8 ≤ (wordAt base i + BitVec.ofNat 64 k - wordAt base j).toNat := by
  have apart : (wordAt base i + BitVec.ofNat 64 k - wordAt base j) =
      BitVec.ofNat 64 (8 * i + k) - BitVec.ofNat 64 (8 * j) := by
    rw [wordAt_add, wordAt, add_sub_add_left_eq_sub]
  rw [apart, BitVec.toNat_sub, BitVec.toNat_ofNat, BitVec.toNat_ofNat]
  omega

theorem load64_other (memory : Memory) (base value : BitVec 64) {i j : Nat} (different : i ≠ j)
    (first : 8 * i + 8 < 2 ^ 64) (second : 8 * j + 8 < 2 ^ 64) :
    load64 (store64 memory (wordAt base j) value) (wordAt base i) = load64 memory (wordAt base i) :=
  load64_congr fun _ inside => store64_outside _ _ _ _ (wordAt_apart base different first second inside)

/-- A store into a frame leaves the bytes outside the frame alone. -/
theorem store64_frame (memory : Memory) (base value a : BitVec 64) {size j : Nat}
    (inside : 8 * j + 8 ≤ size) (outside : size ≤ (a - base).toNat) :
    store64 memory (wordAt base j) value a = memory a := by
  apply store64_outside
  have offset : a - wordAt base j = (a - base) - BitVec.ofNat 64 (8 * j) := by
    rw [wordAt, sub_add_eq_sub_sub]
  have bounded := (a - base).isLt
  rw [offset, BitVec.toNat_sub, BitVec.toNat_ofNat]
  omega

end ByteMemory
