import Mathlib.Logic.Function.Basic

/-!
Sets of naturals packed into machine words of width `w`: element `k` is bit
`k % w` of word `k / w`. Insertion, removal and the word-by-word search for the
least missing element act on the words. The theorems say what they do to the set.
-/

namespace WordSet

variable {w : Nat}

def bit (words : Nat → BitVec w) (k : Nat) : Bool := (words (k / w)).getLsbD (k % w)

def insert (words : Nat → BitVec w) (k : Nat) : Nat → BitVec w :=
  Function.update words (k / w) (words (k / w) ||| (1#w <<< (k % w)))

def erase (words : Nat → BitVec w) (k : Nat) : Nat → BitVec w :=
  Function.update words (k / w) (words (k / w) &&& ~~~(1#w <<< (k % w)))

theorem single_bit (position j : Nat) (inside : j < w) :
    (1#w <<< position).getLsbD j = decide (j = position) := by
  rw [BitVec.getLsbD_shiftLeft, BitVec.getLsbD_one]
  by_cases below : j < position
  · simp [below, Nat.ne_of_lt below]
  · by_cases same : j = position
    · subst same; simp [inside]; omega
    · have positive : j - position ≠ 0 := by omega
      simp [inside, below, same, positive]

theorem same_position (w j k : Nat) :
    j = k ↔ j / w = k / w ∧ j % w = k % w := by
  constructor
  · rintro rfl; exact ⟨rfl, rfl⟩
  · rintro ⟨word, offset⟩
    rw [← Nat.div_add_mod j w, ← Nat.div_add_mod k w, word, offset]

theorem bit_insert (positive : 0 < w) (words : Nat → BitVec w) (k j : Nat) :
    bit (insert words k) j = (decide (j = k) || bit words j) := by
  have inside := Nat.mod_lt j positive
  by_cases word : j / w = k / w
  · have same : j = k ↔ j % w = k % w := by simp [same_position w j k, word]
    simp only [bit, insert, word, Function.update_self, BitVec.getLsbD_or,
      single_bit (k % w) (j % w) inside, same]
    exact Bool.or_comm _ _
  · have different : j ≠ k := fun same => word (by rw [same])
    simp [bit, insert, Function.update_of_ne word, different]

theorem bit_erase (positive : 0 < w) (words : Nat → BitVec w) (k j : Nat) :
    bit (erase words k) j = (decide (j ≠ k) && bit words j) := by
  have inside := Nat.mod_lt j positive
  by_cases word : j / w = k / w
  · have same : j = k ↔ j % w = k % w := by simp [same_position w j k, word]
    simp only [bit, erase, word, Function.update_self, BitVec.getLsbD_and, BitVec.getLsbD_not,
      single_bit (k % w) (j % w) inside, inside, same, decide_true, Bool.true_and, ne_eq, decide_not]
    exact Bool.and_comm _ _
  · have different : j ≠ k := fun same => word (by rw [same])
    simp [bit, erase, Function.update_of_ne word, different]

/-- The low bits below the first clear bit of a word are set. -/
theorem trailing_ones (word : BitVec w) (room : word ≠ ~~~0#w) :
    (~~~word).ctz.toNat < w ∧ word.getLsbD (~~~word).ctz.toNat = false ∧
      ∀ j, j < (~~~word).ctz.toNat → word.getLsbD j = true := by
  have nonzero : ~~~word ≠ 0#w := by
    intro zero
    exact room (by rw [← zero, BitVec.not_not])
  have limit : (~~~word).ctz.toNat < w := by
    have bound := BitVec.ctz_lt_iff_ne_zero.mpr nonzero
    have least := BitVec.lt_def.mp bound
    exact Nat.lt_of_lt_of_le least (by simp)
  have clear := BitVec.getLsbD_true_ctz_of_ne_zero nonzero
  refine ⟨limit, ?_, ?_⟩
  · simpa [BitVec.getLsbD_not, limit] using clear
  · intro j below
    have set := BitVec.getLsbD_false_of_lt_ctz below
    have inside : j < w := Nat.lt_trans below limit
    simpa [BitVec.getLsbD_not, inside] using set

theorem full_word (j : Nat) (inside : j < w) : (~~~0#w).getLsbD j = true := by
  simp [inside]

end WordSet
