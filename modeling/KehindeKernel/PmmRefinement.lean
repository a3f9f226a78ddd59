import Mathlib.Order.Interval.Finset.Nat
import KehindeKernel.Pmm
import KehindeKernel.Lib.LeastFree
import KehindeKernel.Lib.Replay

/-!
The bitmap allocator refines the least-free allocator over the managed frames.
`Sound` keeps the padding bits of the last word set, so every clear bit the scan
can see is a managed frame.
-/

namespace KehindeKernel

open WordSet

/-- Frame `k` is marked used. -/
def Pmm.used (p : Pmm) (k : Nat) : Bool := bit p.bitmap k

def Pmm.frame (p : Pmm) (k : Nat) : Nat := p.physMemStart + k * pageSize

def Pmm.markUsed (p : Pmm) (k : Nat) : Pmm := { p with bitmap := insert p.bitmap k }

def Pmm.markFree (p : Pmm) (k : Nat) : Pmm := { p with bitmap := erase p.bitmap k }

@[simp] theorem Pmm.markUsed_totalFrames (p : Pmm) (k : Nat) :
    (p.markUsed k).totalFrames = p.totalFrames := rfl

@[simp] theorem Pmm.markUsed_physMemStart (p : Pmm) (k : Nat) :
    (p.markUsed k).physMemStart = p.physMemStart := rfl

@[simp] theorem Pmm.markFree_totalFrames (p : Pmm) (k : Nat) :
    (p.markFree k).totalFrames = p.totalFrames := rfl

@[simp] theorem Pmm.markFree_physMemStart (p : Pmm) (k : Nat) :
    (p.markFree k).physMemStart = p.physMemStart := rfl

@[simp] theorem Pmm.used_markUsed (p : Pmm) (k j : Nat) :
    (p.markUsed k).used j = (decide (j = k) || p.used j) :=
  bit_insert (by decide) p.bitmap k j

@[simp] theorem Pmm.used_markFree (p : Pmm) (k j : Nat) :
    (p.markFree k).used j = (decide (j ≠ k) && p.used j) :=
  bit_erase (by decide) p.bitmap k j

theorem Pmm.Sound.markUsed {p : Pmm} (sound : p.Sound) (k : Nat) : (p.markUsed k).Sound where
  aligned := sound.aligned
  positive := sound.positive
  tiled := sound.tiled
  tail := fun j past inside => by
    have padding : p.used j = true := sound.tail j past inside
    have kept : (p.markUsed k).used j = true := by simp [padding]
    exact kept

theorem Pmm.Sound.markFree {p : Pmm} (sound : p.Sound) (k : Nat) (managed : k < p.totalFrames) :
    (p.markFree k).Sound where
  aligned := sound.aligned
  positive := sound.positive
  tiled := sound.tiled
  tail := fun j past inside => by
    have padding : p.used j = true := sound.tail j past inside
    have different : j ≠ k := Nat.ne_of_gt (Nat.lt_of_lt_of_le managed past)
    have kept : (p.markFree k).used j = true := by simp [padding, different]
    exact kept

/-- The scan finds the least clear bit at or after word `i`, if there is one. -/
theorem allocFrameFrom_least (p : Pmm) (trips i : Nat)
    (before : ∀ j, j < i * 64 → p.used j = true) :
    (∃ k, k < (i + trips) * 64 ∧ p.used k = false ∧ (∀ j, j < k → p.used j = true) ∧
      allocFrameFrom p trips i = (p.frame k, p.markUsed k)) ∨
    ((∀ j, j < (i + trips) * 64 → p.used j = true) ∧ allocFrameFrom p trips i = (0, p)) := by
  induction trips generalizing i with
  | zero => exact Or.inr ⟨before, rfl⟩
  | succ trips ih =>
      have bounds : i + 1 + trips = i + (trips + 1) := by omega
      by_cases room : p.bitmap i ≠ ~~~0#64
      · obtain ⟨limit, clear, ones⟩ := trailing_ones (p.bitmap i) room
        have word : (i * 64 + (~~~(p.bitmap i)).ctz.toNat) / 64 = i := by omega
        have offset : (i * 64 + (~~~(p.bitmap i)).ctz.toNat) % 64 = (~~~(p.bitmap i)).ctz.toNat := by
          omega
        refine Or.inl ⟨i * 64 + (~~~(p.bitmap i)).ctz.toNat, by omega, ?_, ?_, ?_⟩
        · simpa only [Pmm.used, bit, word, offset] using clear
        · intro j below
          by_cases earlier : j < i * 64
          · exact before j earlier
          · have sameWord : j / 64 = i := by omega
            simpa only [Pmm.used, bit, sameWord] using ones (j % 64) (by omega)
        · rw [allocFrameFrom, if_pos room]
          simp only [Pmm.frame, Pmm.markUsed, WordSet.insert, word, offset]
      · have full : p.bitmap i = ~~~0#64 := not_not.mp room
        have through : ∀ j, j < (i + 1) * 64 → p.used j = true := by
          intro j below
          by_cases earlier : j < i * 64
          · exact before j earlier
          · have sameWord : j / 64 = i := by omega
            simpa only [Pmm.used, bit, sameWord, full] using full_word (j % 64) (by omega)
        simpa only [allocFrameFrom, room, ↓reduceIte, bounds] using ih (i + 1) through

/-- `alloc_frame` hands out the lowest free frame, or reports that none is free. -/
theorem allocFrame_spec (p : Pmm) (sound : p.Sound) :
    (∃ k, k < p.totalFrames ∧ p.used k = false ∧ (∀ j, j < k → p.used j = true) ∧
      allocFrame p = (p.frame k, p.markUsed k)) ∨
    ((∀ j, j < p.totalFrames → p.used j = true) ∧ allocFrame p = (0, p)) := by
  have small := sound.total_bound
  have trips : intTrips ((p.totalFrames + 63) / 64) = (p.totalFrames + 63) / 64 :=
    intTrips_small _ (by omega)
  have scan := allocFrameFrom_least p ((p.totalFrames + 63) / 64) 0 (by omega)
  simp only [Nat.zero_add] at scan
  rcases scan with ⟨k, limit, clear, least, done⟩ | ⟨full, done⟩
  · have managed : k < p.totalFrames := by
      by_contra past
      have padding : p.used k = true := sound.tail k (by omega) limit
      rw [padding] at clear
      contradiction
    exact Or.inl ⟨k, managed, clear, least, by rw [allocFrame, trips, done]⟩
  · exact Or.inr ⟨fun j below => full j (by omega), by rw [allocFrame, trips, done]⟩

theorem used_test (p : Pmm) (k : Nat) :
    p.bitmap (k / 64) &&& (1#64 <<< (k % 64)) ≠ 0#64 ↔ p.used k = true := by
  have inside : k % 64 < 64 := Nat.mod_lt k (by decide)
  constructor
  · intro nonzero
    by_contra clear
    apply nonzero
    apply BitVec.eq_of_getLsbD_eq
    intro j below
    rw [BitVec.getLsbD_and, single_bit _ j below]
    by_cases same : j = k % 64
    · have clearBit : (p.bitmap (k / 64)).getLsbD (k % 64) = false := by
        simpa [Pmm.used, bit] using clear
      simp [same, clearBit]
    · simp [same]
  · intro set zero
    have read := congrArg (fun word => word.getLsbD (k % 64)) zero
    have setBit : (p.bitmap (k / 64)).getLsbD (k % 64) = true := set
    simp only [BitVec.getLsbD_and, single_bit _ _ inside, setBit] at read
    simp at read

/-- `free_frame` clears the bit of a used managed frame and does nothing else. -/
theorem freeFrame_managed (p : Pmm) (sound : p.Sound) (k : Nat) (managed : k < p.totalFrames) :
    freeFrame p (p.frame k) = if p.used k then p.markFree k else p := by
  have tiled := sound.tiled
  have aligned := sound.aligned
  simp only [pageSize, physMemEnd] at tiled aligned
  have inside : ¬ (p.frame k < p.physMemStart ∨ p.frame k ≥ physMemEnd) := by
    simp only [Pmm.frame, pageSize, physMemEnd]; omega
  have page : ¬ p.frame k % pageSize ≠ 0 := by simp only [Pmm.frame, pageSize]; omega
  have index : (p.frame k - p.physMemStart) / pageSize = k := by
    simp only [Pmm.frame, pageSize]; omega
  have bound : ¬ k ≥ p.totalFrames := by omega
  simp only [freeFrame, if_neg inside, if_neg page, index, if_neg bound]
  by_cases hit : p.used k = true
  · rw [if_pos ((used_test p k).mpr hit), if_pos hit]
    rfl
  · have test : ¬ p.bitmap (k / 64) &&& (1#64 <<< (k % 64)) ≠ 0#64 :=
      fun nonzero => hit ((used_test p k).mp nonzero)
    rw [if_neg test, if_neg hit]

theorem freeFrame_unmanaged (p : Pmm) (sound : p.Sound) (addr : Nat)
    (foreign : ∀ k, k < p.totalFrames → addr ≠ p.frame k) : freeFrame p addr = p := by
  have tiled := sound.tiled
  have aligned := sound.aligned
  simp only [pageSize, physMemEnd] at tiled aligned
  unfold freeFrame
  by_cases outside : addr < p.physMemStart ∨ addr ≥ physMemEnd
  · simp [outside]
  · by_cases page : addr % pageSize ≠ 0
    · rw [if_neg outside, if_pos page]
    · exfalso
      simp only [pageSize, physMemEnd] at page outside
      refine foreign ((addr - p.physMemStart) / 4096) (by omega) ?_
      simp only [Pmm.frame, pageSize]
      omega

theorem allocFrame_sound (p : Pmm) (sound : p.Sound) : (allocFrame p).2.Sound := by
  rcases allocFrame_spec p sound with ⟨k, _, _, _, done⟩ | ⟨_, done⟩
  · rw [done]; exact sound.markUsed k
  · rw [done]; exact sound

theorem freeFrame_sound (p : Pmm) (sound : p.Sound) (addr : Nat) : (freeFrame p addr).Sound := by
  by_cases managed : ∃ k, k < p.totalFrames ∧ addr = p.frame k
  · obtain ⟨k, inside, rfl⟩ := managed
    rw [freeFrame_managed p sound k inside]
    split
    · exact sound.markFree k inside
    · exact sound
  · have foreign : ∀ k, k < p.totalFrames → addr ≠ p.frame k :=
      fun k inside same => managed ⟨k, inside, same⟩
    rw [freeFrame_unmanaged p sound addr foreign]
    exact sound

/-- Every word below the last is cleared by `pmm_init`, the last is masked. -/
theorem maskTail_bit (bitmap : Nat → BitVec 64) (total words k : Nat)
    (cleared : ∀ i, i < words → bitmap i = 0#64) (covered : (total + 63) / 64 ≤ words)
    (inside : k < (total + 63) / 64 * 64) :
    bit (maskTail bitmap total) k = decide (total ≤ k) := by
  have position : k % 64 < 64 := Nat.mod_lt k (by decide)
  have word : bitmap (k / 64) = 0#64 := cleared (k / 64) (by omega)
  unfold maskTail
  by_cases exact : total % 64 ≠ 0
  · simp only [exact, ne_eq, not_false_eq_true, ↓reduceIte, bit]
    have valid : total % 64 < 64 := Nat.mod_lt total (by decide)
    have low : ((1#64 <<< (total % 64)) - 1#64).getLsbD (k % 64) = decide (k % 64 < total % 64) := by
      have power : 2 ^ (total % 64) < 2 ^ 64 := Nat.pow_lt_pow_right (by decide) valid
      have positive : 0 < 2 ^ (total % 64) := Nat.two_pow_pos _
      have value : ((1#64 <<< (total % 64)) - 1#64).toNat = 2 ^ (total % 64) - 1 := by
        rw [BitVec.toNat_sub, BitVec.toNat_shiftLeft, BitVec.toNat_ofNat, Nat.shiftLeft_eq]
        omega
      rw [BitVec.getLsbD, value, Nat.testBit_two_pow_sub_one]
    by_cases last : k / 64 = total / 64
    · rw [last, Function.update_self, ← last, word, BitVec.getLsbD_or, BitVec.getLsbD_not, low]
      have order : decide (total ≤ k) = !decide (k % 64 < total % 64) := by
        rw [← decide_not]
        exact decide_eq_decide.mpr (by omega)
      rw [order]
      simp [position]
    · have below : ¬ total ≤ k := by omega
      rw [Function.update_of_ne last, word]
      simp [below]
  · have below : ¬ total ≤ k := by omega
    simp [exact, bit, word, below]

theorem pmmInit_bit (kernelEnd : Nat) (memory : Nat → BitVec 64) (fits : kernelEnd ≤ physMemEnd)
    (k : Nat) (inside : k < ((pmmInit kernelEnd memory).totalFrames + 63) / 64 * 64) :
    (pmmInit kernelEnd memory).used k = decide ((pmmInit kernelEnd memory).totalFrames ≤ k) := by
  obtain ⟨_, _, _, _, _, words, small⟩ := pmmInit_geometry kernelEnd memory fits
  have trips : intTrips ((pmmInit kernelEnd memory).bitmapBytes / 8) =
      (pmmInit kernelEnd memory).bitmapBytes / 8 := intTrips_small _ (by omega)
  apply maskTail_bit _ _ ((pmmInit kernelEnd memory).bitmapBytes / 8) k ?_ (by omega) inside
  intro i below
  rw [← trips] at below
  exact if_pos below

theorem pmmInit_sound (kernelEnd : Nat) (memory : Nat → BitVec 64) (fits : kernelEnd ≤ physMemEnd) :
    (pmmInit kernelEnd memory).Sound := by
  obtain ⟨_, _, aligned, positive, tiled, _, _⟩ := pmmInit_geometry kernelEnd memory fits
  refine ⟨aligned, positive, tiled, ?_⟩
  intro k past inside
  have padding := pmmInit_bit kernelEnd memory fits k inside
  rw [decide_eq_true past] at padding
  exact padding

inductive PmmOp where
  | alloc
  | free (addr : Nat)

/-- One call. A `free_frame` returns nothing, written `none`. -/
def pmmStep (p : Pmm) : PmmOp → Option Nat × Pmm
  | .alloc => (some (allocFrame p).1, (allocFrame p).2)
  | .free addr => (none, freeFrame p addr)

/-- Base addresses of the pages of `[physMemStart, PHYS_MEM_END)`. -/
def Pmm.managed (p : Pmm) : Finset Nat :=
  (Finset.Ico p.physMemStart physMemEnd).filter fun addr => addr % pageSize = 0

/-- The allocator a client may rely on: `held` are the frames handed out and
not validly freed since. -/
def ledgerStep (managed held : Finset Nat) : PmmOp → Option Nat × Finset Nat
  | .alloc =>
      let taken := LeastFree.take managed held
      (some (taken.1.getD 0), taken.2)
  | .free addr => (none, held.erase addr)

theorem mem_managed (p : Pmm) (sound : p.Sound) (addr : Nat) :
    addr ∈ p.managed ↔ ∃ k, k < p.totalFrames ∧ addr = p.frame k := by
  have tiled := sound.tiled
  have aligned := sound.aligned
  simp only [pageSize, physMemEnd] at tiled aligned
  simp only [Pmm.managed, Finset.mem_filter, Finset.mem_Ico]
  simp only [Pmm.frame, pageSize, physMemEnd]
  constructor
  · rintro ⟨⟨low, high⟩, page⟩
    exact ⟨(addr - p.physMemStart) / 4096, by omega, by omega⟩
  · rintro ⟨k, inside, rfl⟩
    omega

theorem frame_injective (p : Pmm) (j k : Nat) : p.frame j = p.frame k ↔ j = k := by
  simp only [Pmm.frame, pageSize]; omega

theorem frame_range (p : Pmm) (sound : p.Sound) (k : Nat) (below : k < p.totalFrames) :
    p.frame k % pageSize = 0 ∧ p.physMemStart ≤ p.frame k ∧ p.frame k < physMemEnd := by
  have tiled := sound.tiled
  have aligned := sound.aligned
  simp only [Pmm.frame, pageSize, physMemEnd] at *
  omega

/-- The bitmap of `p` holds exactly the frames in `held`. -/
structure Represents (managed : Finset Nat) (p : Pmm) (held : Finset Nat) : Prop where
  sound : p.Sound
  region : p.managed = managed
  exactly : ∀ k, k < p.totalFrames → (p.used k = true ↔ p.frame k ∈ held)
  inside : held ⊆ managed

theorem represents_init (kernelEnd : Nat) (memory : Nat → BitVec 64)
    (fits : kernelEnd ≤ physMemEnd) :
    Represents (pmmInit kernelEnd memory).managed (pmmInit kernelEnd memory) ∅ where
  sound := pmmInit_sound kernelEnd memory fits
  region := rfl
  exactly := fun k below => by
    have bitValue := pmmInit_bit kernelEnd memory fits k (by omega)
    simp [bitValue, below]
  inside := Finset.empty_subset _

theorem represents_alloc (managed : Finset Nat) (p : Pmm) (held : Finset Nat)
    (rep : Represents managed p held) :
    (allocFrame p).1 = (LeastFree.take managed held).1.getD 0 ∧
      Represents managed (allocFrame p).2 (LeastFree.take managed held).2 := by
  have members := mem_managed p rep.sound
  rw [rep.region] at members
  rcases allocFrame_spec p rep.sound with ⟨k, below, clear, least, done⟩ | ⟨full, done⟩
  · have member : p.frame k ∈ LeastFree.free managed held := by
      refine Finset.mem_sdiff.mpr ⟨(members _).mpr ⟨k, below, rfl⟩, ?_⟩
      intro taken
      rw [(rep.exactly k below).mpr taken] at clear
      contradiction
    have minimal : ∀ b ∈ LeastFree.free managed held, p.frame k ≤ b := by
      intro b found
      obtain ⟨inManaged, notHeld⟩ := Finset.mem_sdiff.mp found
      obtain ⟨j, inside, rfl⟩ := (members b).mp inManaged
      have order : k ≤ j := by
        by_contra earlier
        exact notHeld ((rep.exactly j inside).mp (least j (by omega)))
      simp only [Pmm.frame, pageSize]
      omega
    rw [done, LeastFree.take_least managed held _ member minimal]
    refine ⟨rfl, rep.sound.markUsed k, rep.region, ?_, ?_⟩
    · intro j inside
      have old := rep.exactly j inside
      rw [Pmm.used_markUsed, Finset.mem_insert]
      change _ ↔ p.frame j = p.frame k ∨ p.frame j ∈ held
      simp [old, frame_injective]
    · exact Finset.insert_subset (Finset.mem_sdiff.mp member).1 rep.inside
  · have empty : LeastFree.free managed held = ∅ := by
      apply Finset.eq_empty_of_forall_notMem
      intro b found
      obtain ⟨inManaged, notHeld⟩ := Finset.mem_sdiff.mp found
      obtain ⟨j, inside, rfl⟩ := (members b).mp inManaged
      exact notHeld ((rep.exactly j inside).mp (full j inside))
    rw [done, LeastFree.take_exhausted managed held empty]
    exact ⟨rfl, rep⟩

theorem represents_free (managed : Finset Nat) (p : Pmm) (held : Finset Nat)
    (rep : Represents managed p held) (addr : Nat) :
    Represents managed (freeFrame p addr) (held.erase addr) ∧
      (addr ∉ held → freeFrame p addr = p) := by
  have members := mem_managed p rep.sound
  rw [rep.region] at members
  by_cases known : ∃ k, k < p.totalFrames ∧ addr = p.frame k
  · obtain ⟨k, below, rfl⟩ := known
    rw [freeFrame_managed p rep.sound k below]
    by_cases hit : p.used k = true
    · have taken := (rep.exactly k below).mp hit
      refine ⟨?_, fun absent => absurd taken absent⟩
      rw [if_pos hit]
      refine ⟨rep.sound.markFree k below, rep.region, ?_, ?_⟩
      · intro j inside
        have old := rep.exactly j inside
        rw [Pmm.used_markFree, Finset.mem_erase]
        change _ ↔ p.frame j ≠ p.frame k ∧ p.frame j ∈ held
        simp [old, frame_injective]
      · exact (Finset.erase_subset _ _).trans rep.inside
    · have absent : p.frame k ∉ held := fun taken => hit ((rep.exactly k below).mpr taken)
      rw [if_neg hit, Finset.erase_eq_of_notMem absent]
      exact ⟨rep, fun _ => rfl⟩
  · have foreign : ∀ k, k < p.totalFrames → addr ≠ p.frame k :=
      fun k inside same => known ⟨k, inside, same⟩
    have absent : addr ∉ held := fun taken => known ((members addr).mp (rep.inside taken))
    rw [freeFrame_unmanaged p rep.sound addr foreign, Finset.erase_eq_of_notMem absent]
    exact ⟨rep, fun _ => rfl⟩

theorem represents_step (managed : Finset Nat) (p : Pmm) (held : Finset Nat) (op : PmmOp)
    (rep : Represents managed p held) :
    (pmmStep p op).1 = (ledgerStep managed held op).1 ∧
      Represents managed (pmmStep p op).2 (ledgerStep managed held op).2 := by
  cases op with
  | alloc =>
      have result := represents_alloc managed p held rep
      exact ⟨congrArg some result.1, result.2⟩
  | free addr => exact ⟨rfl, (represents_free managed p held rep addr).1⟩

/-- What a client of the allocator sees after `ops`, for the frames `held` that
it was handed and has not validly freed. -/
structure AllocatorView (kernelEnd : Nat) (p : Pmm) (managed held : Finset Nat) : Prop where
  clear : ∀ k, k < p.totalFrames → (p.used k = false ↔ p.frame k ∈ LeastFree.free managed held)
  lowest : ∀ a, a ∈ LeastFree.free managed held →
    (∀ b ∈ LeastFree.free managed held, a ≤ b) → (allocFrame p).1 = a
  exhausted : (allocFrame p).1 = 0 ↔ LeastFree.free managed held = ∅
  refused : ∀ addr, addr ∉ held → (freeFrame p addr).bitmap = p.bitmap
  notLive : (allocFrame p).1 ∉ held
  pastImage : ∀ a ∈ managed, kernelEnd ≤ a ∧ p.bitmapAddr + p.bitmapBytes ≤ a

theorem frame_positive (p : Pmm) (sound : p.Sound) (k : Nat) : p.frame k ≠ 0 := by
  have positive := sound.positive
  simp only [Pmm.frame, pageSize]
  omega

theorem represents_view (kernelEnd : Nat) (managed : Finset Nat) (p : Pmm) (held : Finset Nat)
    (rep : Represents managed p held)
    (past : kernelEnd ≤ p.bitmapAddr ∧ p.bitmapAddr + p.bitmapBytes ≤ p.physMemStart) :
    AllocatorView kernelEnd p managed held := by
  have members := mem_managed p rep.sound
  rw [rep.region] at members
  have result := (represents_alloc managed p held rep).1
  -- a null answer means no frame, as no frame is at zero
  have nonzero : ∀ a ∈ managed, a ≠ 0 := by
    intro a inManaged
    obtain ⟨k, _, rfl⟩ := (members a).mp inManaged
    exact frame_positive p rep.sound k
  constructor
  · intro k below
    have inManaged := (members _).mpr ⟨k, below, rfl⟩
    have old := rep.exactly k below
    rw [LeastFree.free, Finset.mem_sdiff, ← old]
    simp [inManaged]
  · intro a member least
    rw [result, LeastFree.take_least managed held a member least]
    rfl
  · rw [result]
    constructor
    · intro zero
      by_contra room
      obtain ⟨a, member⟩ := Finset.nonempty_iff_ne_empty.mpr room
      cases taken : (LeastFree.take managed held).1 with
      | none => simp [LeastFree.take, show (LeastFree.free managed held).Nonempty from ⟨a, member⟩] at taken
      | some b =>
          rw [taken] at zero
          exact nonzero b (LeastFree.take_was_free managed held b taken).1 zero
    · intro empty
      rw [LeastFree.take_exhausted managed held empty]
      rfl
  · intro addr absent
    rw [(represents_free managed p held rep addr).2 absent]
  · rw [result]
    cases taken : (LeastFree.take managed held).1 with
    | none => exact fun zero => nonzero 0 (rep.inside zero) rfl
    | some b => exact (LeastFree.take_was_free managed held b taken).2
  · intro a inManaged
    obtain ⟨k, _, rfl⟩ := (members a).mp inManaged
    simp only [Pmm.frame, pageSize]
    omega

/-- The bitmap's place never moves. -/
theorem pmmStep_geometry (p : Pmm) (op : PmmOp) :
    (pmmStep p op).2.bitmapAddr = p.bitmapAddr ∧ (pmmStep p op).2.bitmapBytes = p.bitmapBytes ∧
      (pmmStep p op).2.physMemStart = p.physMemStart := by
  have scan : ∀ trips i, (allocFrameFrom p trips i).2.bitmapAddr = p.bitmapAddr ∧
      (allocFrameFrom p trips i).2.bitmapBytes = p.bitmapBytes ∧
      (allocFrameFrom p trips i).2.physMemStart = p.physMemStart := by
    intro trips
    induction trips with
    | zero => intro i; exact ⟨rfl, rfl, rfl⟩
    | succ trips ih =>
        intro i
        rw [allocFrameFrom]
        split
        · exact ⟨rfl, rfl, rfl⟩
        · exact ih (i + 1)
  cases op with
  | alloc => exact scan _ 0
  | free addr =>
      simp only [pmmStep, freeFrame]
      split
      · exact ⟨rfl, rfl, rfl⟩
      · split
        · exact ⟨rfl, rfl, rfl⟩
        · split
          · exact ⟨rfl, rfl, rfl⟩
          · split <;> exact ⟨rfl, rfl, rfl⟩

theorem pmm_refines_least_free (kernelEnd : Nat) (fits : kernelEnd ≤ physMemEnd)
    (memory : Nat → BitVec 64) (ops : List PmmOp) :
    let start := pmmInit kernelEnd memory
    let code := Replay.run pmmStep start ops
    let spec := Replay.run (ledgerStep start.managed) ∅ ops
    code.1 = spec.1 ∧ AllocatorView kernelEnd code.2 start.managed spec.2 := by
  intro start code spec
  have linked := Replay.run_simulation pmmStep (ledgerStep start.managed)
    (Represents start.managed) (fun p held op => represents_step start.managed p held op)
    start ∅ (represents_init kernelEnd memory fits) ops
  have geometry := Replay.run_invariant pmmStep
    (fun p => kernelEnd ≤ p.bitmapAddr ∧ p.bitmapAddr + p.bitmapBytes ≤ p.physMemStart)
    (by
      intro p op past
      obtain ⟨base, bytes, first⟩ := pmmStep_geometry p op
      rw [base, bytes, first]
      exact past)
    start
    (by
      obtain ⟨image, bitmap, _⟩ := pmmInit_geometry kernelEnd memory fits
      exact ⟨image, bitmap⟩) ops
  exact ⟨linked.1, represents_view kernelEnd start.managed code.2 spec.2 linked.2 geometry⟩

/-- A kernel that ends at 512 KiB: an allocation, two bad frees, the valid one
and the allocation that reuses the frame. -/
theorem pmm_refines_least_free_small_kernel :
    let start := pmmInit 0x80000 (fun _ => 0x5A#64)
    let ops := [.alloc, .free 3, .free 0xFFFFFFFFFFFFF000, .free 0x88000, .alloc]
    let code := Replay.run pmmStep start ops
    let spec := Replay.run (ledgerStep start.managed) ∅ ops
    code.1 = spec.1 ∧ AllocatorView 0x80000 code.2 start.managed spec.2 :=
  pmm_refines_least_free 0x80000 (by decide) (fun _ => 0x5A#64)
    [.alloc, .free 3, .free 0xFFFFFFFFFFFFF000, .free 0x88000, .alloc]

end KehindeKernel
