import KehindeKernel.FsRuns
import KehindeKernel.Lib.Intervals
import KehindeKernel.Lib.Replay

/-!
What a sequence of `kmalloc` calls hands out, whatever their sizes. The regions
keep the header's contract exactly as long as the end of each request is still a
64-bit address: the limit is compared with a sum that wraps.
-/

namespace KehindeKernel

open Outcome Intervals

variable {σ : Type} [Backing σ]

def kmallocRun (back : σ) (sizes : List Nat) : Run (List Nat × Heap σ) :=
  Replay.attempt kmalloc (kheapInit back) sizes

def regionEnd (region : Nat × Nat) : Nat × Nat := (region.1, region.1 + region.2)

structure RegionsSound (regions : List (Nat × Nat)) : Prop where
  aligned : ∀ region ∈ regions, region.1 % 16 = 0
  inside : ∀ region ∈ regions, heapBase ≤ region.1 ∧ region.1 + region.2 ≤ heapBase + heapMaxSize
  disjoint : (regions.map regionEnd).Pairwise fun one other =>
    Disjoint (Set.Ico one.1 one.2) (Set.Ico other.1 other.2)

/-- A run that returned `addrs` served sound regions, and none of its calls moved
`bump_ptr` down. -/
def ServesRegions (back : σ) (sizes addrs : List Nat) : Prop :=
  RegionsSound (addrs.zip sizes) ∧
    Replay.Along kmalloc (fun h size => Returns (fun r => h.bumpPtr ≤ r.2.bumpPtr) (kmalloc h size))
      (kheapInit back) sizes

/-- What `heap_end` keeps when the bump pointer does not. -/
structure EndShape (h : Heap σ) : Prop where
  base : heapBase ≤ h.heapEnd
  page : h.heapEnd % pageSize = 0
  window : h.heapEnd ≤ heapBase + heapMaxSize

omit [Backing σ] in
theorem HeapShape.ends {h : Heap σ} (shape : HeapShape h) : EndShape h :=
  ⟨shape.base.trans shape.mapped, shape.page, shape.window⟩

/-- Whatever the size, a call panics or returns: the loop never runs out of trips. -/
theorem kmalloc_guarded (h : Heap σ) (size : Nat) (ends : EndShape h) :
    Guarded (fun r => r.1 = h.bumpPtr ∧ EndShape r.2) (kmalloc h size) := by
  unfold kmalloc
  dsimp only
  generalize (h.bumpPtr + alignRequest size) % 2 ^ 64 = required
  by_cases past : required > heapBase + heapMaxSize
  · rw [if_pos past]
    exact .panic
  · rw [if_neg past]
    have limit := Nat.not_lt.mp past
    have low := ends.base
    have high := ends.window
    cases mapped : lazyMap required (heapMaxSize / pageSize) h with
    | error stop =>
        have panics : stop = .panic := by
          apply lazyMap_stop required _ h stop _ _ mapped
          · simp only [heapBase, heapMaxSize, pageSize] at *
            omega
          · simp only [heapBase, heapMaxSize, pageSize] at *
            omega
        rw [panics]
        exact .panic
    | ok middle =>
        obtain ⟨bump, grew, _, page, window⟩ := lazyMap_ok required _ h middle ends.page high limit mapped
        exact .ok _ ⟨bump, low.trans grew, page, window⟩

theorem kmallocRun_guarded (back : σ) (sizes : List Nat) :
    Guarded (fun r => EndShape r.2) (kmallocRun back sizes) :=
  Replay.attempt_guarded kmalloc EndShape (fun _ _ => True)
    (fun h size ends _ => (kmalloc_guarded h size ends).mono fun _ holds => holds.2)
    sizes _ (kheapInit_shape back).ends (Replay.along_of_forall kmalloc (fun _ => True) sizes _ fun _ _ => trivial)

/-- While no sum wraps, the regions of a run are stacked above the bump pointer it
starts from. -/
theorem regions_stacked (sizes : List Nat) (h h' : Heap σ) (addrs : List Nat) (shape : HeapShape h)
    (along : Replay.Along kmalloc NoWrap h sizes) (done : Replay.attempt kmalloc h sizes = .ok (addrs, h')) :
    Stacked h.bumpPtr (heapBase + heapMaxSize) ((addrs.zip sizes).map regionEnd) ∧
      ∀ region ∈ addrs.zip sizes, region.1 % 16 = 0 := by
  induction sizes generalizing h addrs with
  | nil =>
      rw [List.zip_nil_right]
      exact ⟨shape.mapped.trans shape.window, by simp⟩
  | cons size rest ih =>
      obtain ⟨addr, middle, tail, first, later, rfl⟩ := (Replay.attempt_cons_ok _ _ _ _ _ _).mp done
      obtain ⟨served, bump, shape'⟩ := kmalloc_straight h middle size addr shape along.1 first
      obtain ⟨stacked, aligned⟩ := ih middle tail shape' (along.2 addr middle first) later
      rw [List.zip_cons_cons]
      constructor
      · refine ⟨Nat.le_of_eq served.symm, Nat.le_add_right _ _, ?_⟩
        -- the rounding only widens the gap to the next region
        have room : addr + size ≤ middle.bumpPtr := by
          rw [bump, served, Heap.requiredEnd]
          omega
        exact stacked.lower room
      · intro region member
        rcases List.mem_cons.mp member with rfl | member
        · rw [served]
          exact shape.aligned
        · exact aligned region member

theorem noWrap_of_inside (sizes : List Nat) (h h' : Heap σ) (addrs : List Nat) (shape : HeapShape h)
    (inside : ∀ region ∈ addrs.zip sizes, region.1 + region.2 ≤ heapBase + heapMaxSize)
    (done : Replay.attempt kmalloc h sizes = .ok (addrs, h')) : Replay.Along kmalloc NoWrap h sizes := by
  induction sizes generalizing h addrs with
  | nil => trivial
  | cons size rest ih =>
      obtain ⟨addr, middle, tail, first, later, rfl⟩ := (Replay.attempt_cons_ok _ _ _ _ _ _).mp done
      rw [List.zip_cons_cons] at inside
      have served : addr = h.bumpPtr := ((kmalloc_guarded h size shape.ends).of_eq first).1
      have ends := inside _ List.mem_cons_self
      have straight : NoWrap h size := by
        rw [NoWrap, Heap.requiredEnd]
        simp only [heapBase, heapMaxSize] at ends
        omega
      refine ⟨straight, ?_⟩
      intro out next again
      obtain ⟨rfl, rfl⟩ := Prod.mk.inj (Except.ok.inj (first.symm.trans again))
      obtain ⟨_, _, shape'⟩ := kmalloc_straight h middle size addr shape straight first
      exact ih middle tail shape' (fun region member => inside region (List.mem_cons_of_mem _ member)) later

theorem bump_rises (sizes : List Nat) (h : Heap σ) (shape : HeapShape h)
    (along : Replay.Along kmalloc NoWrap h sizes) :
    Replay.Along kmalloc (fun h size => Returns (fun r => h.bumpPtr ≤ r.2.bumpPtr) (kmalloc h size)) h sizes := by
  induction sizes generalizing h with
  | nil => trivial
  | cons size rest ih =>
      constructor
      · rintro ⟨addr, h'⟩ first
        obtain ⟨_, bump, _⟩ := kmalloc_straight h h' size addr shape along.1 first
        rw [bump]
        exact Nat.le_add_right _ _
      · intro addr h' first
        obtain ⟨_, _, shape'⟩ := kmalloc_straight h h' size addr shape along.1 first
        exact ih h' shape' (along.2 addr h' first)

/-- A run that returns kept the contract of `kmalloc` if and only if the end of
each of its requests was a 64-bit address. -/
theorem regions_sound_iff_no_wrap (back : σ) (sizes : List Nat) :
    Guarded (fun r => ServesRegions back sizes r.1 ↔ Replay.Along kmalloc NoWrap (kheapInit back) sizes)
      (kmallocRun back sizes) := by
  have shape := kheapInit_shape back
  apply (kmallocRun_guarded back sizes).mono_eq
  intro r result _
  constructor
  · rintro ⟨sound, _⟩
    exact noWrap_of_inside sizes _ r.2 r.1 shape (fun region member => (sound.inside region member).2) result
  · intro along
    obtain ⟨stacked, aligned⟩ := regions_stacked sizes _ r.2 r.1 shape along result
    refine ⟨⟨aligned, ?_, stacked.disjoint⟩, bump_rises sizes _ shape along⟩
    intro region member
    exact stacked.within (regionEnd region) (List.mem_map_of_mem member)

def wrappingSizes : List Nat := [16, 0xfffffffefffffff0, 16]

/-- The second request ends at 2^64: the sum wraps to zero and passes the limit
check, and the third call hands out address zero. -/
theorem kmalloc_wraps_to_zero :
    ¬ ∀ (σ : Type) (_ : Backing σ) (back : σ) (sizes : List Nat) (_ : ∀ size ∈ sizes, size < 2 ^ 64),
      Guarded (fun r => ServesRegions back sizes r.1) (kmallocRun back sizes) := by
  intro claimed
  have served := claimed Endless inferInstance Endless.mk wrappingSizes (by decide)
  have returned : (kmallocRun Endless.mk wrappingSizes).map Prod.fst =
      .ok [heapBase, heapBase + 16, 0] := by decide +kernel
  cases result : kmallocRun Endless.mk wrappingSizes with
  | error stop =>
      rw [result] at returned
      simp [Except.map] at returned
  | ok r =>
      rw [result] at served returned
      obtain ⟨sound, _⟩ := served.of_eq rfl
      have addrs : r.1 = [heapBase, heapBase + 16, 0] := Except.ok.inj returned
      rw [addrs] at sound
      have inside := sound.inside (0, 16) (by simp [wrappingSizes])
      exact absurd inside.1 (by decide)

end KehindeKernel
