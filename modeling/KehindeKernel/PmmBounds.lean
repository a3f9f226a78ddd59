import KehindeKernel.PmmRefinement

/-!
Where the frame allocator's bitmap lies and which of its words are touched. The
calls appear a second time with every bitmap access and every subtraction
checked: a word at or past `bitmap_bytes / 8` and a difference that wraps are
faults. In every state the allocator reaches the checked calls do what the
plain ones do.
-/

namespace KehindeKernel

open Outcome WordSet

def checkedSub (a b : Nat) : Run Nat := if b ≤ a then pure (sub64 a b) else throw .fault

def Pmm.load (p : Pmm) (i : Nat) : Run (BitVec 64) :=
  if i < p.bitmapBytes / 8 then pure (p.bitmap i) else throw .fault

def Pmm.store (p : Pmm) (i : Nat) (word : BitVec 64) : Run Pmm :=
  if i < p.bitmapBytes / 8 then pure { p with bitmap := Function.update p.bitmap i word } else throw .fault

/-- The clearing loop of `pmm_init`. -/
def clearWords : Nat → Nat → Pmm → Run Pmm
  | 0, _, p => pure p
  | trips + 1, i, p => do
      let p ← p.store i 0#64
      clearWords trips (i + 1) p

def maskTailChecked (p : Pmm) : Run Pmm :=
  let lastWord := p.totalFrames / 64
  let validBits := p.totalFrames % 64
  if validBits ≠ 0 then do
    let mask := ~~~((1#64 <<< validBits) - 1#64)
    let word ← p.load lastWord
    p.store lastWord (word ||| mask)
  else pure p

def pmmInitChecked (kernelEnd : Nat) (memory : Nat → BitVec 64) : Run Pmm := do
  let bitmapAddr := roundUp kernelEnd pageSize
  let managedBytes ← checkedSub physMemEnd bitmapAddr
  let maxFrames := managedBytes / pageSize
  let bitmapBytes := (maxFrames + 63) / 64 * 8
  let physMemStart := roundUp (bitmapAddr + bitmapBytes) pageSize
  let left ← checkedSub physMemEnd physMemStart
  let totalFrames := left / pageSize
  let p ← clearWords (intTrips (bitmapBytes / 8)) 0
    { bitmap := memory, bitmapAddr, bitmapBytes, physMemStart, totalFrames }
  maskTailChecked p

def scanChecked (p : Pmm) : Nat → Nat → Run (Nat × Pmm)
  | 0, _ => pure (0, p)
  | trips + 1, i => do
      let word ← p.load i
      if word ≠ ~~~0#64 then
        let bitIndex := (~~~word).ctz.toNat
        let idx := i * 64 + bitIndex
        let q ← p.store i (word ||| (1#64 <<< bitIndex))
        pure (p.physMemStart + idx * pageSize, q)
      else scanChecked p trips (i + 1)

def allocFrameChecked (p : Pmm) : Run (Nat × Pmm) :=
  scanChecked p (intTrips ((p.totalFrames + 63) / 64)) 0

def freeFrameChecked (p : Pmm) (addr : Nat) : Run Pmm :=
  if addr < p.physMemStart ∨ addr ≥ physMemEnd then pure p
  else if addr % pageSize ≠ 0 then pure p
  else do
    let offset ← checkedSub addr p.physMemStart
    let frameIndex := offset / pageSize
    if frameIndex ≥ p.totalFrames then pure p
    else
      let wordIndex := frameIndex / 64
      let bitIndex := frameIndex % 64
      let word ← p.load wordIndex
      if word &&& (1#64 <<< bitIndex) ≠ 0#64 then p.store wordIndex (word &&& ~~~(1#64 <<< bitIndex))
      else pure p

def checkedStep (p : Pmm) : PmmOp → Run (Option Nat × Pmm)
  | .alloc => do
      let r ← allocFrameChecked p
      pure (some r.1, r.2)
  | .free addr => do
      let q ← freeFrameChecked p addr
      pure (none, q)

/-- The bitmap lies past the kernel image and before the frames, and has a word
for every frame. -/
structure Pmm.Placed (kernelEnd : Nat) (p : Pmm) : Prop where
  sound : p.Sound
  pastImage : kernelEnd ≤ p.bitmapAddr
  beforeFrames : p.bitmapAddr + p.bitmapBytes ≤ p.physMemStart
  covered : (p.totalFrames + 63) / 64 ≤ p.bitmapBytes / 8

variable {kernelEnd : Nat}

theorem pmmInit_placed (memory : Nat → BitVec 64) (fits : kernelEnd ≤ physMemEnd) :
    (pmmInit kernelEnd memory).Placed kernelEnd := by
  obtain ⟨image, bitmap, _, _, _, words, _⟩ := pmmInit_geometry kernelEnd memory fits
  exact ⟨pmmInit_sound kernelEnd memory fits, image, bitmap, by omega⟩

theorem pmmStep_placed (p : Pmm) (op : PmmOp) (placed : p.Placed kernelEnd) :
    (pmmStep p op).2.Placed kernelEnd := by
  obtain ⟨base, bytes, first⟩ := pmmStep_geometry p op
  have sound : (pmmStep p op).2.Sound := by
    cases op with
    | alloc => exact allocFrame_sound p placed.sound
    | free addr => exact freeFrame_sound p placed.sound addr
  have total : (pmmStep p op).2.totalFrames = p.totalFrames := by
    have before := placed.sound.tiled
    have after := sound.tiled
    rw [first] at after
    simp only [pageSize] at before after
    omega
  constructor
  · exact sound
  · rw [base]
    exact placed.pastImage
  · rw [base, bytes, first]
    exact placed.beforeFrames
  · rw [total, bytes]
    exact placed.covered

theorem clearWords_eq (trips i : Nat) (p : Pmm) (fits : i + trips ≤ p.bitmapBytes / 8) :
    clearWords trips i p =
      .ok { p with bitmap := fun j => if i ≤ j ∧ j < i + trips then 0#64 else p.bitmap j } := by
  induction trips generalizing i p with
  | zero =>
      have none : ∀ j, ¬ (i ≤ j ∧ j < i + 0) := fun j => by omega
      simp only [clearWords, if_neg (none _), pure_ok]
  | succ trips ih =>
      have stored : p.store i 0#64 = .ok { p with bitmap := Function.update p.bitmap i 0#64 } :=
        if_pos (by omega)
      rw [clearWords, stored, ok_bind, ih (i + 1) _ (by simp only; omega)]
      congr 1
      simp only [Pmm.mk.injEq, and_true]
      funext j
      by_cases here : j = i
      · subst here
        rw [Function.update_self, ite_self, if_pos (by omega)]
      · rw [Function.update_of_ne here]
        by_cases later : i + 1 ≤ j ∧ j < i + 1 + trips
        · rw [if_pos later, if_pos (by omega)]
        · rw [if_neg later, if_neg (by omega)]

theorem maskTailChecked_eq (p : Pmm) (covered : (p.totalFrames + 63) / 64 ≤ p.bitmapBytes / 8) :
    maskTailChecked p = .ok { p with bitmap := maskTail p.bitmap p.totalFrames } := by
  unfold maskTailChecked maskTail
  by_cases partly : p.totalFrames % 64 ≠ 0
  · have inside : p.totalFrames / 64 < p.bitmapBytes / 8 := by omega
    simp only [if_pos partly, Pmm.load, Pmm.store, if_pos inside, pure_ok, ok_bind]
  · simp only [if_neg partly, pure_ok]

theorem pmmInitChecked_eq (memory : Nat → BitVec 64) (fits : kernelEnd ≤ physMemEnd) :
    pmmInitChecked kernelEnd memory = .ok (pmmInit kernelEnd memory) := by
  obtain ⟨_, before, _, _, tiled, covered, small⟩ := pmmInit_geometry kernelEnd memory fits
  have first : roundUp kernelEnd pageSize ≤ physMemEnd := by
    change (pmmInit kernelEnd memory).bitmapAddr ≤ physMemEnd
    omega
  have second : (pmmInit kernelEnd memory).physMemStart ≤ physMemEnd := by omega
  have trips : intTrips ((pmmInit kernelEnd memory).bitmapBytes / 8) ≤
      (pmmInit kernelEnd memory).bitmapBytes / 8 := Nat.min_le_left _ _
  have left : checkedSub physMemEnd (pmmInit kernelEnd memory).physMemStart =
      .ok (sub64 physMemEnd (pmmInit kernelEnd memory).physMemStart) := if_pos second
  have cleared := clearWords_eq (intTrips ((pmmInit kernelEnd memory).bitmapBytes / 8)) 0
    { pmmInit kernelEnd memory with bitmap := memory } (by rw [Nat.zero_add]; exact trips)
  unfold pmmInitChecked
  simp only [checkedSub, if_pos first, pure_ok, ok_bind]
  refine (congrArg (· >>= _) left).trans ?_
  rw [ok_bind]
  refine (congrArg (· >>= maskTailChecked) cleared).trans ?_
  rw [ok_bind, maskTailChecked_eq _ (by simp only; omega)]
  simp only [Nat.zero_le, true_and, Nat.zero_add]
  rfl

theorem scanChecked_eq (p : Pmm) (trips i : Nat) (inside : i + trips ≤ p.bitmapBytes / 8) :
    scanChecked p trips i = .ok (allocFrameFrom p trips i) := by
  induction trips generalizing i with
  | zero => rfl
  | succ trips ih =>
      have here : i < p.bitmapBytes / 8 := by omega
      simp only [scanChecked, allocFrameFrom, Pmm.load, Pmm.store, if_pos here, pure_ok, ok_bind]
      split
      · rfl
      · exact ih (i + 1) (by omega)

theorem freeFrameChecked_eq (p : Pmm) (addr : Nat)
    (covered : (p.totalFrames + 63) / 64 ≤ p.bitmapBytes / 8) :
    freeFrameChecked p addr = .ok (freeFrame p addr) := by
  unfold freeFrameChecked freeFrame
  by_cases outside : addr < p.physMemStart ∨ addr ≥ physMemEnd
  · rw [if_pos outside, if_pos outside, pure_ok]
  · have below : p.physMemStart ≤ addr := Nat.le_of_not_lt fun less => outside (Or.inl less)
    have small : addr < physMemEnd := Nat.lt_of_not_le fun more => outside (Or.inr more)
    have difference : checkedSub addr p.physMemStart = .ok (addr - p.physMemStart) := by
      rw [checkedSub, if_pos below, sub64_le _ _ below (Nat.lt_trans small (by decide)), pure_ok]
    rw [if_neg outside, if_neg outside, difference, ok_bind]
    by_cases page : addr % pageSize ≠ 0
    · rw [if_pos page, if_pos page, pure_ok]
    · rw [if_neg page, if_neg page]
      dsimp only
      by_cases past : (addr - p.physMemStart) / pageSize ≥ p.totalFrames
      · rw [if_pos past, if_pos past, pure_ok]
      · have inside : (addr - p.physMemStart) / pageSize / 64 < p.bitmapBytes / 8 := by omega
        rw [if_neg past, if_neg past]
        simp only [Pmm.load, Pmm.store, if_pos inside, pure_ok, ok_bind]
        split
        · rfl
        · rfl

theorem checkedStep_eq (p : Pmm) (op : PmmOp) (placed : p.Placed kernelEnd) :
    checkedStep p op = .ok (pmmStep p op) := by
  cases op with
  | alloc =>
      have covered := placed.covered
      have trips : intTrips ((p.totalFrames + 63) / 64) ≤ (p.totalFrames + 63) / 64 := Nat.min_le_left _ _
      rw [checkedStep, allocFrameChecked, scanChecked_eq p _ 0 (by omega), ok_bind]
      rfl
  | free addr =>
      rw [checkedStep, freeFrameChecked_eq p addr placed.covered, ok_bind]
      rfl

/-- Bytes of the bitmap's words. -/
def Pmm.metadata (p : Pmm) (byte : Nat) : Prop :=
  ∃ i < p.bitmapBytes / 8, p.bitmapAddr + 8 * i ≤ byte ∧ byte < p.bitmapAddr + 8 * i + 8

def Pmm.inFrame (p : Pmm) (k byte : Nat) : Prop := p.frame k ≤ byte ∧ byte < p.frame k + pageSize

/-- The geometry `pmm_init` fixes, as it is in any later state. -/
structure Pmm.Geometry (kernelEnd : Nat) (p : Pmm) : Prop where
  aligned : p.physMemStart % pageSize = 0
  ordered : p.bitmapAddr + p.bitmapBytes ≤ p.physMemStart ∧ p.physMemStart ≤ physMemEnd
  tiled : ∀ byte, p.physMemStart ≤ byte ∧ byte < physMemEnd ↔ ∃ k < p.totalFrames, p.inFrame k byte
  apart : ∀ byte j k, p.inFrame j byte → p.inFrame k byte → j = k
  metadata : ∀ byte, p.metadata byte → kernelEnd ≤ byte ∧ ∀ k, ¬ p.inFrame k byte

theorem Pmm.Placed.geometry {p : Pmm} (placed : p.Placed kernelEnd) : p.Geometry kernelEnd := by
  have tiled := placed.sound.tiled
  have image := placed.pastImage
  have before := placed.beforeFrames
  simp only [pageSize, physMemEnd] at tiled
  constructor
  · exact placed.sound.aligned
  · simp only [physMemEnd]
    omega
  · intro byte
    simp only [Pmm.inFrame, Pmm.frame, pageSize, physMemEnd]
    constructor
    · rintro ⟨low, high⟩
      exact ⟨(byte - p.physMemStart) / 4096, by omega, by omega, by omega⟩
    · rintro ⟨k, below, low, high⟩
      omega
  · intro byte j k
    simp only [Pmm.inFrame, Pmm.frame, pageSize]
    omega
  · rintro byte ⟨i, below, low, high⟩
    refine ⟨by omega, fun k => ?_⟩
    simp only [Pmm.inFrame, Pmm.frame, pageSize]
    omega

/-- Right after `pmm_init` exactly the managed frames of the scanned words are
free; no call, on any address and after any calls, touches a word outside the
bitmap, which meets neither the kernel image nor a frame. -/
theorem pmm_geometry_sound (kernelEnd : Nat) (fits : kernelEnd ≤ physMemEnd) (memory : Nat → BitVec 64)
    (ops : List PmmOp) :
    let start := pmmInit kernelEnd memory
    pmmInitChecked kernelEnd memory = .ok start ∧ start.Geometry kernelEnd ∧
      (∀ k < (start.totalFrames + 63) / 64 * 64, start.used k = decide (start.totalFrames ≤ k)) ∧
      Replay.attempt checkedStep start ops = .ok (Replay.run pmmStep start ops) ∧
      (Replay.run pmmStep start ops).2.Geometry kernelEnd := by
  intro start
  have placed : start.Placed kernelEnd := pmmInit_placed memory fits
  refine ⟨pmmInitChecked_eq memory fits, placed.geometry, pmmInit_bit kernelEnd memory fits, ?_, ?_⟩
  · exact Replay.attempt_total checkedStep pmmStep (Pmm.Placed kernelEnd) checkedStep_eq pmmStep_placed
      start placed ops
  · exact (Replay.run_invariant pmmStep (Pmm.Placed kernelEnd) pmmStep_placed start placed ops).geometry

/-- A kernel that leaves one page, which the bitmap takes. -/
theorem pmm_geometry_sound_one_page :
    let start := pmmInit 0x3F7FF000 (fun _ => 0x5A#64)
    let ops := [.alloc, .free 0x3F7FF000, .free 0xFFFFFFFFFFFFF000]
    pmmInitChecked 0x3F7FF000 (fun _ => 0x5A#64) = .ok start ∧ start.Geometry 0x3F7FF000 ∧
      (∀ k < (start.totalFrames + 63) / 64 * 64, start.used k = decide (start.totalFrames ≤ k)) ∧
      Replay.attempt checkedStep start ops = .ok (Replay.run pmmStep start ops) ∧
      (Replay.run pmmStep start ops).2.Geometry 0x3F7FF000 :=
  pmm_geometry_sound 0x3F7FF000 (by decide) (fun _ => 0x5A#64)
    [.alloc, .free 0x3F7FF000, .free 0xFFFFFFFFFFFFF000]

end KehindeKernel
