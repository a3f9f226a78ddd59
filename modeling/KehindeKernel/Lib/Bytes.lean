import Mathlib.Algebra.Group.Nat.Hom
import Mathlib.Data.List.Basic
import Mathlib.Logic.Function.Basic

/-!
Byte regions: little-endian words, block copies into and out of a region, and
text up to the first zero byte.
-/

namespace Bytes

abbrev Region := Nat → UInt8

/-- The `n`-byte little-endian word at the start of a region. -/
def decode : Nat → Region → Nat
  | 0, _ => 0
  | n + 1, region => (region 0).toNat + 256 * decode n (fun i => region (i + 1))

def encode : Nat → Nat → List UInt8
  | 0, _ => []
  | n + 1, value => UInt8.ofNat value :: encode n (value / 256)

def load (region : Region) (at_ n : Nat) : List UInt8 :=
  (List.range n).map fun i => region (at_ + i)

def store (region : Region) (at_ : Nat) : List UInt8 → Region
  | [] => region
  | byte :: rest => store (Function.update region at_ byte) (at_ + 1) rest

/-- The bytes before the first zero. -/
def text (bytes : List UInt8) : List UInt8 := bytes.takeWhile (· ≠ 0)

theorem encode_length (n value : Nat) : (encode n value).length = n := by
  induction n generalizing value with
  | zero => rfl
  | succ n ih => simp [encode, ih]

theorem decode_congr (n : Nat) (left right : Region) (same : ∀ i, i < n → left i = right i) :
    decode n left = decode n right := by
  induction n generalizing left right with
  | zero => rfl
  | succ n ih =>
      rw [decode, decode, same 0 (Nat.succ_pos n)]
      rw [ih _ _ fun i below => same (i + 1) (Nat.succ_lt_succ below)]

theorem decode_encode (n value : Nat) (small : value < 256 ^ n) (region : Region)
    (here : ∀ i, i < n → region i = (encode n value).getD i 0) : decode n region = value := by
  induction n generalizing value region with
  | zero =>
      have zero : value = 0 := by simpa using small
      simp [decode, zero]
  | succ n ih =>
      have first : region 0 = UInt8.ofNat value := by
        rw [here 0 (Nat.succ_pos n)]; rfl
      have rest := ih (value / 256) (by
        apply Nat.div_lt_of_lt_mul
        rwa [Nat.pow_succ, Nat.mul_comm] at small) (fun i => region (i + 1)) (by
          intro i below
          rw [here (i + 1) (Nat.succ_lt_succ below)]
          rfl)
      rw [decode, rest, first, UInt8.toNat_ofNat']
      exact Nat.mod_add_div value 256

@[simp] theorem load_length (region : Region) (at_ n : Nat) : (load region at_ n).length = n := by
  simp [load]

theorem load_get (region : Region) (at_ n i : Nat) (inside : i < n) :
    (load region at_ n).getD i 0 = region (at_ + i) := by
  simp [load, inside]

theorem load_congr (left right : Region) (i j n : Nat)
    (same : ∀ k, k < n → left (i + k) = right (j + k)) : load left i n = load right j n := by
  apply List.map_congr_left
  intro k member
  exact same k (List.mem_range.mp member)

theorem store_get (region : Region) (at_ : Nat) (bytes : List UInt8) (i : Nat) :
    store region at_ bytes i =
      if at_ ≤ i ∧ i < at_ + bytes.length then bytes.getD (i - at_) 0 else region i := by
  induction bytes generalizing region at_ with
  | nil =>
      have outside : ¬ (at_ ≤ i ∧ i < at_ + 0) := by omega
      rw [store, List.length_nil, if_neg outside]
  | cons byte rest ih =>
      rw [store, ih, List.length_cons]
      by_cases first : i = at_
      · subst first
        have passed : ¬ (i + 1 ≤ i ∧ i < i + 1 + rest.length) := by omega
        have inside : i ≤ i ∧ i < i + (rest.length + 1) := by omega
        rw [if_neg passed, if_pos inside]
        simp
      · rw [Function.update_of_ne first]
        by_cases later : at_ + 1 ≤ i ∧ i < at_ + 1 + rest.length
        · have inside : at_ ≤ i ∧ i < at_ + (rest.length + 1) := by omega
          have shift : i - at_ = i - (at_ + 1) + 1 := by omega
          rw [if_pos later, if_pos inside, shift]
          rfl
        · have outside : ¬ (at_ ≤ i ∧ i < at_ + (rest.length + 1)) := by omega
          rw [if_neg later, if_neg outside]

/-- `bytes` holds `line` followed by a zero. -/
def Terminated (bytes line : List UInt8) : Prop := ∃ rest, bytes = line ++ 0 :: rest ∧ 0 ∉ line

theorem terminated_cstring (line : List UInt8) (plain : 0 ∉ line) : Terminated (line ++ [0]) line :=
  ⟨[], rfl, plain⟩

theorem Terminated.text_eq {bytes line : List UInt8} (ends : Terminated bytes line) :
    text bytes = line := by
  obtain ⟨rest, rfl, plain⟩ := ends
  rw [text, List.takeWhile_append_of_pos]
  · simp
  · intro byte member
    simpa using fun zero : byte = 0 => plain (zero ▸ member)

theorem terminated_text (bytes : List UInt8) (zero : 0 ∈ bytes) : Terminated bytes (text bytes) := by
  induction bytes with
  | nil => contradiction
  | cons byte rest ih =>
      by_cases first : byte = 0
      · exact ⟨rest, by simp [text, first], by simp [text, first]⟩
      · obtain ⟨tail, same, plain⟩ := ih (by simpa [Ne.symm first] using zero)
        refine ⟨tail, ?_, ?_⟩
        · rw [show text (byte :: rest) = byte :: text rest by simp [text, first], List.cons_append]
          exact congrArg (List.cons byte) same
        · rw [show text (byte :: rest) = byte :: text rest by simp [text, first]]
          simp [plain, Ne.symm first]

theorem Terminated.get {bytes line : List UInt8} (ends : Terminated bytes line) (i : Nat)
    (inside : i ≤ line.length) : bytes[i]? = some (line.getD i 0) := by
  obtain ⟨rest, rfl, _⟩ := ends
  by_cases last : i = line.length
  · subst last
    simp
  · have before : i < line.length := by omega
    simp [List.getElem?_append_left before, before]

/-- A line stored with its zero reads back as text. -/
theorem load_store_line (region : Region) (at_ n : Nat) (line : List UInt8) (plain : 0 ∉ line)
    (fits : line.length < n) : Terminated (load (store region at_ (line ++ [0])) at_ n) line := by
  refine ⟨(load (store region at_ (line ++ [0])) at_ n).drop (line.length + 1), ?_, plain⟩
  apply List.ext_getElem?
  intro i
  by_cases inside : i < n
  · have here : (load (store region at_ (line ++ [0])) at_ n)[i]? =
        some (store region at_ (line ++ [0]) (at_ + i)) := by
      simp [load, inside]
    rw [here, store_get, List.length_append, List.length_singleton]
    by_cases before : i < line.length
    · rw [if_pos (by omega), List.getElem?_append_left before]
      simp [before, List.getElem?_append_left before]
    · by_cases last : i = line.length
      · subst last
        rw [if_pos (by omega), List.getElem?_append_right (Nat.le_refl _)]
        simp
      · have past : line.length + 1 ≤ i := by omega
        rw [if_neg (by omega), List.getElem?_append_right (by omega),
          List.getElem?_cons, if_neg (by omega), List.getElem?_drop]
        have index : line.length + 1 + (i - line.length - 1) = i := by omega
        rw [index, here, store_get, List.length_append, List.length_singleton, if_neg (by omega)]
  · rw [List.getElem?_eq_none (by rw [load_length]; omega), eq_comm, List.getElem?_eq_none]
    rw [List.length_append, List.length_cons, List.length_drop, load_length]
    omega

end Bytes
