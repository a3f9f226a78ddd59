import KehindeKernel.Lib.BitField
import KehindeKernel.Lib.WordSet

/-!
The flat-bitmap frame allocator of `pmm.cpp`. Addresses and counts are naturals
with explicit wrap-around where the source can wrap; bitmap words are 64-bit
vectors. `bitmap` is the memory behind the source's pointer, indexed by word.
-/

namespace KehindeKernel

/-- `PAGE_SIZE` -/
def pageSize : Nat := 4096

/-- `PHYS_MEM_END`, the same value in both branches of `board.h`. -/
def physMemEnd : Nat := 0x3F800000

/-- 64-bit unsigned subtraction. -/
def sub64 (a b : Nat) : Nat := (a + (2 ^ 64 - b)) % 2 ^ 64

/-- Trips of `for (int i = 0; i < n; i++)` against an unsigned `n`. The counter
wraps to a value that compares above every `n` the kernel can pass. -/
def intTrips (n : Nat) : Nat := min n (2 ^ 31)

def roundUp (value align : Nat) : Nat :=
  (value + align - 1) % 2 ^ 64 &&& (2 ^ 64 - align)

structure Pmm where
  bitmap : Nat → BitVec 64
  bitmapAddr : Nat
  bitmapBytes : Nat
  physMemStart : Nat
  totalFrames : Nat

def maskTail (bitmap : Nat → BitVec 64) (totalFrames : Nat) : Nat → BitVec 64 :=
  let lastWord := totalFrames / 64
  let validBits := totalFrames % 64
  if validBits ≠ 0 then
    -- the bits behind the last frame count as taken
    let mask := ~~~((1#64 <<< validBits) - 1#64)
    Function.update bitmap lastWord (bitmap lastWord ||| mask)
  else bitmap

/-- `memory` is what the bitmap's words hold before the kernel boots. -/
def pmmInit (kernelEnd : Nat) (memory : Nat → BitVec 64) : Pmm :=
  let bitmapAddr := roundUp kernelEnd pageSize
  let managedBytes := sub64 physMemEnd bitmapAddr
  let maxFrames := managedBytes / pageSize
  let bitmapBytes := (maxFrames + 63) / 64 * 8
  let physMemStart := roundUp (bitmapAddr + bitmapBytes) pageSize
  let totalFrames := sub64 physMemEnd physMemStart / pageSize
  let cleared := fun i => if i < intTrips (bitmapBytes / 8) then 0#64 else memory i
  { bitmap := maskTail cleared totalFrames
    bitmapAddr, bitmapBytes, physMemStart, totalFrames }

def allocFrameFrom (p : Pmm) : Nat → Nat → Nat × Pmm
  | 0, _ => (0, p)
  | trips + 1, i =>
      if p.bitmap i ≠ ~~~0#64 then
        let bitIndex := (~~~(p.bitmap i)).ctz.toNat
        let idx := i * 64 + bitIndex
        (p.physMemStart + idx * pageSize,
          { p with bitmap := Function.update p.bitmap i (p.bitmap i ||| (1#64 <<< bitIndex)) })
      else allocFrameFrom p trips (i + 1)

def allocFrame (p : Pmm) : Nat × Pmm :=
  allocFrameFrom p (intTrips ((p.totalFrames + 63) / 64)) 0

def freeFrame (p : Pmm) (addr : Nat) : Pmm :=
  if addr < p.physMemStart ∨ addr ≥ physMemEnd then p
  else if addr % pageSize ≠ 0 then p
  else
    let frameIndex := (addr - p.physMemStart) / pageSize
    if frameIndex ≥ p.totalFrames then p
    else
      let wordIndex := frameIndex / 64
      let bitIndex := frameIndex % 64
      if p.bitmap wordIndex &&& (1#64 <<< bitIndex) ≠ 0#64 then
        { p with bitmap := Function.update p.bitmap wordIndex
                   (p.bitmap wordIndex &&& ~~~(1#64 <<< bitIndex)) }
      else p

theorem intTrips_small (n : Nat) (small : n ≤ 2 ^ 31) : intTrips n = n := Nat.min_eq_left small

theorem sub64_le (a b : Nat) (order : b ≤ a) (small : a < 2 ^ 64) : sub64 a b = a - b := by
  unfold sub64; omega

theorem roundUp_page (value : Nat) (small : value < 2 ^ 63) :
    roundUp value pageSize = (value + 4095) / 4096 * 4096 := by
  have mask := BitField.and_mask ((value + 4095) % 2 ^ 64) 12 64 (by decide)
  have shape : roundUp value pageSize = (value + 4095) % 2 ^ 64 &&& (2 ^ 64 - 2 ^ 12) := rfl
  rw [shape, mask]
  omega

/-- The managed frames tile `[physMemStart, PHYS_MEM_END)` and the bits past the
last frame in its word are set, so the scan never finds them. -/
structure Pmm.Sound (p : Pmm) : Prop where
  aligned : p.physMemStart % pageSize = 0
  positive : 0 < p.physMemStart
  tiled : p.physMemStart + p.totalFrames * pageSize = physMemEnd
  tail : ∀ k, p.totalFrames ≤ k → k < (p.totalFrames + 63) / 64 * 64 →
    WordSet.bit p.bitmap k = true

theorem Pmm.Sound.total_bound {p : Pmm} (sound : p.Sound) : p.totalFrames < 2 ^ 20 := by
  have := sound.tiled
  simp only [pageSize, physMemEnd] at this
  omega

/-- Geometry after `pmm_init`, for every kernel size that leaves the bitmap a base. -/
theorem pmmInit_geometry (kernelEnd : Nat) (memory : Nat → BitVec 64)
    (fits : kernelEnd ≤ physMemEnd) :
    let p := pmmInit kernelEnd memory
    kernelEnd ≤ p.bitmapAddr ∧ p.bitmapAddr + p.bitmapBytes ≤ p.physMemStart ∧
      p.physMemStart % pageSize = 0 ∧ 0 < p.physMemStart ∧
      p.physMemStart + p.totalFrames * pageSize = physMemEnd ∧
      (p.totalFrames + 63) / 64 * 8 ≤ p.bitmapBytes ∧ p.bitmapBytes / 8 ≤ 4096 := by
  simp only [physMemEnd] at fits
  have base : roundUp kernelEnd pageSize = (kernelEnd + 4095) / 4096 * 4096 :=
    roundUp_page kernelEnd (by omega)
  have managed : sub64 physMemEnd (roundUp kernelEnd pageSize) =
      0x3F800000 - (kernelEnd + 4095) / 4096 * 4096 := by
    rw [base, physMemEnd, sub64_le _ _ (by omega) (by omega)]
  have first := roundUp_page (roundUp kernelEnd pageSize +
    (sub64 physMemEnd (roundUp kernelEnd pageSize) / pageSize + 63) / 64 * 8)
    (by rw [managed, base, pageSize]; omega)
  have room := sub64_le physMemEnd (roundUp (roundUp kernelEnd pageSize +
    (sub64 physMemEnd (roundUp kernelEnd pageSize) / pageSize + 63) / 64 * 8) pageSize)
    (by rw [first, managed, base, pageSize, physMemEnd]; omega) (by simp only [physMemEnd]; omega)
  simp only [pmmInit]
  rw [room, first, managed, base]
  simp only [pageSize, physMemEnd]
  omega

end KehindeKernel
