import Mathlib.Data.Nat.Bitwise

/-!
Stage 1 of the AArch64 address translation for the 4 KiB granule, as the hardware
does it: the registers are words, and so are the descriptors. Permissions and the
attributes of whole tables are left out.
-/

namespace Stage1

/-- Bits `[low + size - 1 : low]` of a word. -/
def bits (word low size : Nat) : Nat := word / 2 ^ low % 2 ^ size

/-- TCR_EL1 and MAIR_EL1. -/
structure Regime where
  tcr : Nat
  mair : Nat

inductive Fault where
  | addressSize (level : Nat)
  | translation (level : Nat)
  | accessFlag (level : Nat)
  deriving DecidableEq, Repr

/-- Where an access goes, and the byte of MAIR_EL1 that says how. -/
structure Target where
  address : Nat
  kind : Nat
  deriving DecidableEq, Repr

namespace Regime

/-- T0SZ -/
def inputSize (r : Regime) : Nat := 64 - bits r.tcr 0 6

/-- IPS -/
def outputSize (r : Regime) : Nat :=
  match bits r.tcr 32 3 with
  | 0 => 32
  | 1 => 36
  | 2 => 40
  | 3 => 42
  | 4 => 44
  | _ => 48

def kind (r : Regime) (index : Nat) : Nat := bits r.mair (8 * index) 8

/-- The lookups that an address takes, with nine bits each; the last is level 3. -/
def lookups (r : Regime) : Nat := (r.inputSize - 12 + 8) / 9

/-- A block or a page of `2 ^ shift` bytes. -/
def leaf (r : Regime) (level shift descriptor va : Nat) : Except Fault Target :=
  let base := bits descriptor shift (48 - shift) * 2 ^ shift
  if 2 ^ r.outputSize ≤ base then .error (.addressSize level)
  else if bits descriptor 10 1 = 0 then .error (.accessFlag level)
  else .ok ⟨base + va % 2 ^ shift, r.kind (bits descriptor 2 3)⟩

/-- What a lookup finds. -/
inductive Found where
  | table (address : Nat)
  | target (target : Target)

/-- The descriptor of a lookup with `n` more to come. -/
def lookup (r : Regime) (va n descriptor : Nat) : Except Fault Found :=
  if bits descriptor 0 1 = 0 then .error (.translation (3 - n))
  else if bits descriptor 1 1 = 0 then
    -- a block, which levels 0 and 3 do not have
    if n = 0 ∨ n = 3 then .error (.translation (3 - n))
    else (r.leaf (3 - n) (12 + 9 * n) descriptor va).map .target
  else if n = 0 then (r.leaf 3 12 descriptor va).map .target
  else
    let next := bits descriptor 12 36 * 2 ^ 12
    if 2 ^ r.outputSize ≤ next then .error (.addressSize (3 - n)) else .ok (.table next)

/-- The slot of an address in the table of such a lookup. -/
def slot (va n : Nat) : Nat := bits va (12 + 9 * n) 9

def walk (r : Regime) (mem : Nat → Nat → Nat) (va : Nat) : Nat → Nat → Except Fault Target
  | 0, _ => .error (.translation 0)
  | n + 1, table =>
      match r.lookup va n (mem table (slot va n)) with
      | .error fault => .error fault
      | .ok (.target target) => .ok target
      | .ok (.table next) => walk r mem va n next

/-- `mem` reads the words of the table at an address. -/
def translate (r : Regime) (mem : Nat → Nat → Nat) (ttbr va : Nat) : Except Fault Target :=
  if 2 ^ r.inputSize ≤ va then .error (.translation 0) else r.walk mem va r.lookups ttbr

variable {r : Regime} {mem : Nat → Nat → Nat} {va n table : Nat}

theorem valid_bits {descriptor : Nat} (valid : descriptor % 4 = 3) :
    bits descriptor 0 1 = 1 ∧ bits descriptor 1 1 = 1 := by
  simp only [bits]
  omega

theorem lookup_clear : r.lookup va n 0 = .error (.translation (3 - n)) := by
  simp only [lookup, bits, Nat.zero_div, Nat.zero_mod, if_true]

theorem walk_clear (clear : mem table (slot va n) = 0) :
    r.walk mem va (n + 1) table = .error (.translation (3 - n)) := by
  simp only [walk, clear, lookup_clear]

theorem walk_table (valid : mem table (slot va (n + 1)) % 4 = 3)
    (reached : bits (mem table (slot va (n + 1))) 12 36 * 2 ^ 12 < 2 ^ r.outputSize) :
    r.walk mem va (n + 2) table = r.walk mem va (n + 1) (bits (mem table (slot va (n + 1))) 12 36 * 2 ^ 12) := by
  obtain ⟨present, linked⟩ := valid_bits valid
  have found : r.lookup va (n + 1) (mem table (slot va (n + 1))) =
      .ok (.table (bits (mem table (slot va (n + 1))) 12 36 * 2 ^ 12)) := by
    simp only [lookup, present, linked, Nat.succ_ne_zero, if_false, if_neg (Nat.not_le.mpr reached)]
  simp only [walk, found]

theorem walk_page (valid : mem table (slot va 0) % 4 = 3) :
    r.walk mem va 1 table = r.leaf 3 12 (mem table (slot va 0)) va := by
  obtain ⟨present, linked⟩ := valid_bits valid
  have found : r.lookup va 0 (mem table (slot va 0)) =
      (r.leaf 3 12 (mem table (slot va 0)) va).map .target := by
    simp only [lookup, present, linked, Nat.one_ne_zero, if_false, if_true]
  simp only [walk, found]
  cases r.leaf 3 12 (mem table (slot va 0)) va with
  | error fault => rfl
  | ok target => rfl

end Regime

end Stage1
