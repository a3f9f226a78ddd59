import KehindeKernel.Pmm
import KehindeKernel.Lib.Outcome

/-!
The bump allocator of `heap_alloc.cpp` over any source of backing pages. The
loop of `kmalloc` has a trip for each page of the heap window at most. `panic`
prints its message and never returns.
-/

namespace KehindeKernel

open Outcome

/-- `HEAP_BASE` -/
def heapBase : Nat := 0x100000000

/-- `HEAP_MAX_SIZE` -/
def heapMaxSize : Nat := 0x100000

/-- What backs the heap. `growPage` maps the page at an address to a fresh frame,
`none` when the machine has none left. -/
class Backing (σ : Type) where
  growPage : σ → Nat → Option σ

structure Heap (σ : Type) where
  bumpPtr : Nat
  heapEnd : Nat
  back : σ

variable {σ : Type}

def kheapInit (back : σ) : Heap σ where
  bumpPtr := heapBase
  heapEnd := heapBase
  back := back

/-- A request rounded up to the 16-byte guarantee. -/
def alignRequest (size : Nat) : Nat := (size + 15) % 2 ^ 64 &&& (2 ^ 64 - 16)

def lazyMap [Backing σ] (requiredEnd : Nat) : Nat → Heap σ → Run (Heap σ)
  | 0, h => if h.heapEnd < requiredEnd then throw .hang else pure h
  | trips + 1, h =>
      if h.heapEnd < requiredEnd then
        match Backing.growPage h.back h.heapEnd with
        | none => throw .panic
        | some back =>
            lazyMap requiredEnd trips
              { h with heapEnd := (h.heapEnd + pageSize) % 2 ^ 64, back := back }
      else pure h

def kmalloc [Backing σ] (h : Heap σ) (size : Nat) : Run (Nat × Heap σ) := do
  let aligned := alignRequest size
  -- the sum wraps before it is compared with the limit
  let requiredEnd := (h.bumpPtr + aligned) % 2 ^ 64
  if requiredEnd > heapBase + heapMaxSize then throw .panic
  let h ← lazyMap requiredEnd (heapMaxSize / pageSize) h
  pure (h.bumpPtr, { h with bumpPtr := (h.bumpPtr + aligned) % 2 ^ 64 })

structure HeapShape (h : Heap σ) : Prop where
  base : heapBase ≤ h.bumpPtr
  aligned : h.bumpPtr % 16 = 0
  mapped : h.bumpPtr ≤ h.heapEnd
  page : h.heapEnd % pageSize = 0
  window : h.heapEnd ≤ heapBase + heapMaxSize

theorem kheapInit_shape (back : σ) : HeapShape (kheapInit back) where
  base := Nat.le_refl _
  aligned := show heapBase % 16 = 0 by decide
  mapped := Nat.le_refl _
  page := show heapBase % pageSize = 0 by decide
  window := Nat.le_add_right _ _

theorem alignRequest_exact (size : Nat) (fits : size + 15 < 2 ^ 64) :
    alignRequest size = (size + 15) / 16 * 16 := by
  have mask := BitField.and_mask ((size + 15) % 2 ^ 64) 4 64 (by decide)
  have field : (2 ^ 64 - 16 : Nat) = 2 ^ 64 - 2 ^ 4 := by decide
  rw [alignRequest, field, mask]
  omega

def Heap.requiredEnd (h : Heap σ) (size : Nat) : Nat := h.bumpPtr + (size + 15) / 16 * 16

/-- The end of the request is an address: neither sum of `kmalloc` wraps. -/
def NoWrap (h : Heap σ) (size : Nat) : Prop := h.requiredEnd size < 2 ^ 64

theorem noWrap_small (h : Heap σ) (size : Nat) (shape : HeapShape h) (small : size ≤ heapMaxSize) :
    NoWrap h size := by
  have mapped := shape.mapped
  have window := shape.window
  rw [NoWrap, Heap.requiredEnd]
  simp only [heapBase, heapMaxSize] at *
  omega

theorem NoWrap.exact {h : Heap σ} {size : Nat} (straight : NoWrap h size) :
    (h.bumpPtr + alignRequest size) % 2 ^ 64 = h.requiredEnd size := by
  rw [NoWrap, Heap.requiredEnd] at straight
  rw [alignRequest_exact size (by omega), Heap.requiredEnd]
  exact Nat.mod_eq_of_lt straight

variable [Backing σ]

theorem lazyMap_done (requiredEnd trips : Nat) (h : Heap σ) (done : requiredEnd ≤ h.heapEnd) :
    lazyMap requiredEnd trips h = .ok h := by
  have stop : ¬ h.heapEnd < requiredEnd := Nat.not_lt.mpr done
  cases trips with
  | zero => simp [lazyMap, stop]
  | succ trips => simp [lazyMap, stop]

/-- What each page taken from the store keeps, a completed loop keeps, and it has
covered the request. -/
theorem lazyMap_invariant (requiredEnd : Nat) (Inv : Heap σ → Prop)
    (kept : ∀ h back, Inv h → h.heapEnd < requiredEnd → Backing.growPage h.back h.heapEnd = some back →
      Inv { h with heapEnd := (h.heapEnd + pageSize) % 2 ^ 64, back := back })
    (trips : Nat) (h h' : Heap σ) (start : Inv h) (done : lazyMap requiredEnd trips h = .ok h') :
    Inv h' ∧ requiredEnd ≤ h'.heapEnd := by
  induction trips generalizing h with
  | zero =>
      by_cases short : h.heapEnd < requiredEnd
      · simp [lazyMap, short] at done
      · rw [lazyMap_done requiredEnd 0 h (Nat.not_lt.mp short)] at done
        cases done
        exact ⟨start, Nat.not_lt.mp short⟩
  | succ trips ih =>
      by_cases short : h.heapEnd < requiredEnd
      · simp only [lazyMap, short, ↓reduceIte] at done
        cases grown : Backing.growPage h.back h.heapEnd with
        | none => simp [grown] at done
        | some back =>
            simp only [grown] at done
            exact ih _ (kept h back start short grown) done
      · rw [lazyMap_done requiredEnd _ h (Nat.not_lt.mp short)] at done
        cases done
        exact ⟨start, Nat.not_lt.mp short⟩

/-- A completed loop leaves `bump_ptr` alone and `heap_end` at the first page
boundary that covers the request. -/
theorem lazyMap_ok (requiredEnd trips : Nat) (h h' : Heap σ) (page : h.heapEnd % pageSize = 0)
    (window : h.heapEnd ≤ heapBase + heapMaxSize) (limit : requiredEnd ≤ heapBase + heapMaxSize)
    (done : lazyMap requiredEnd trips h = .ok h') :
    h'.bumpPtr = h.bumpPtr ∧ h.heapEnd ≤ h'.heapEnd ∧ requiredEnd ≤ h'.heapEnd ∧
      h'.heapEnd % pageSize = 0 ∧ h'.heapEnd ≤ heapBase + heapMaxSize := by
  have grows := lazyMap_invariant requiredEnd
    (fun k => k.bumpPtr = h.bumpPtr ∧ h.heapEnd ≤ k.heapEnd ∧ k.heapEnd % pageSize = 0 ∧
      k.heapEnd ≤ heapBase + heapMaxSize)
    (by
      rintro k back ⟨bump, low, page, window⟩ short _
      simp only [heapBase, heapMaxSize, pageSize] at *
      omega)
    trips h h' ⟨rfl, Nat.le_refl _, page, window⟩ done
  obtain ⟨⟨bump, low, page', window'⟩, covered⟩ := grows
  exact ⟨bump, low, covered, page', window'⟩

/-- The loop has enough trips, so a call that stops has panicked. -/
theorem lazyMap_stop (requiredEnd trips : Nat) (h : Heap σ) (stop : Stop)
    (window : h.heapEnd + trips * pageSize < 2 ^ 64)
    (enough : requiredEnd ≤ h.heapEnd + trips * pageSize)
    (stopped : lazyMap requiredEnd trips h = .error stop) : stop = .panic := by
  induction trips generalizing h with
  | zero =>
      rw [lazyMap_done requiredEnd 0 h (by omega)] at stopped
      contradiction
  | succ trips ih =>
      by_cases short : h.heapEnd < requiredEnd
      · simp only [lazyMap, short, ↓reduceIte] at stopped
        cases grown : Backing.growPage h.back h.heapEnd with
        | none =>
            simp only [grown, throw_error, Except.error.injEq] at stopped
            exact stopped.symm
        | some back =>
            simp only [grown] at stopped
            simp only [pageSize] at *
            exact ih _ (by dsimp only; omega) (by dsimp only; omega) stopped
      · rw [lazyMap_done requiredEnd _ h (Nat.not_lt.mp short)] at stopped
        contradiction

theorem kmalloc_eq (h : Heap σ) (size : Nat) (straight : NoWrap h size) :
    kmalloc h size =
      if h.requiredEnd size > heapBase + heapMaxSize then throw .panic
      else lazyMap (h.requiredEnd size) (heapMaxSize / pageSize) h >>= fun h' =>
        pure (h'.bumpPtr, { h' with bumpPtr := (h'.bumpPtr + alignRequest size) % 2 ^ 64 }) := by
  simp only [kmalloc, straight.exact]
  split <;> rfl

/-- What a call that returns hands out and leaves behind. -/
theorem kmalloc_straight (h h' : Heap σ) (size addr : Nat) (shape : HeapShape h)
    (straight : NoWrap h size) (done : kmalloc h size = .ok (addr, h')) :
    addr = h.bumpPtr ∧ h'.bumpPtr = h.requiredEnd size ∧ HeapShape h' := by
  rw [kmalloc_eq h size straight] at done
  by_cases past : h.requiredEnd size > heapBase + heapMaxSize
  · simp [past] at done
  · rw [if_neg past] at done
    obtain ⟨middle, mapped, rest⟩ := (bind_ok_iff _ _ _).mp done
    obtain ⟨bump, _, covers, page, window⟩ := lazyMap_ok _ _ h middle shape.page shape.window
      (Nat.not_lt.mp past) mapped
    simp only [pure_ok, Except.ok.injEq, Prod.mk.injEq] at rest
    obtain ⟨rfl, rfl⟩ := rest
    have exact := straight.exact
    have base := shape.base
    have aligned := shape.aligned
    refine ⟨bump, by rw [bump]; exact exact, ?_⟩
    constructor
    · dsimp only; rw [bump, exact, Heap.requiredEnd]; omega
    · dsimp only; rw [bump, exact, Heap.requiredEnd]; omega
    · dsimp only; rw [bump, exact]; exact covers
    · exact page
    · exact window

theorem kmalloc_ok (h h' : Heap σ) (size addr : Nat) (shape : HeapShape h)
    (small : size ≤ heapMaxSize) (done : kmalloc h size = .ok (addr, h')) :
    addr = h.bumpPtr ∧ h'.bumpPtr = h.requiredEnd size ∧ HeapShape h' :=
  kmalloc_straight h h' size addr shape (noWrap_small h size shape small) done

theorem kmalloc_stop (h : Heap σ) (size : Nat) (stop : Stop) (shape : HeapShape h)
    (small : size ≤ heapMaxSize) (stopped : kmalloc h size = .error stop) : stop = .panic := by
  rw [kmalloc_eq h size (noWrap_small h size shape small)] at stopped
  by_cases past : h.requiredEnd size > heapBase + heapMaxSize
  · simp only [past, ↓reduceIte, throw_error, Except.error.injEq] at stopped
    exact stopped.symm
  · rw [if_neg past] at stopped
    cases mapped : lazyMap (h.requiredEnd size) (heapMaxSize / pageSize) h with
    | ok middle => simp [mapped] at stopped
    | error reason =>
        simp only [mapped, error_bind, Except.error.injEq] at stopped
        subst stopped
        have base := shape.base
        have ends := shape.mapped
        have window := shape.window
        simp only [heapBase, heapMaxSize] at *
        exact lazyMap_stop _ _ h reason (by simp only [pageSize]; omega)
          (by simp only [pageSize]; omega) mapped

def allocs (h : Heap σ) : List Nat → Run (Heap σ)
  | [] => .ok h
  | size :: rest => do
      let (_, h) ← kmalloc h size
      allocs h rest

theorem allocs_append (h : Heap σ) (front back : List Nat) :
    allocs h (front ++ back) = allocs h front >>= fun h => allocs h back := by
  induction front generalizing h with
  | nil => rfl
  | cons size rest ih =>
      rw [List.cons_append, allocs, allocs]
      cases kmalloc h size with
      | error stop => rfl
      | ok r => exact ih r.2

/-- Requests that stop have panicked. -/
theorem allocs_stop (h : Heap σ) (sizes : List Nat) (shape : HeapShape h)
    (small : ∀ size ∈ sizes, size ≤ heapMaxSize) (stop : Stop) (stopped : allocs h sizes = .error stop) :
    stop = .panic := by
  induction sizes generalizing h with
  | nil => contradiction
  | cons size rest ih =>
      have fits := small size List.mem_cons_self
      rw [allocs] at stopped
      cases result : kmalloc h size with
      | error reason =>
          rw [result, error_bind, Except.error.injEq] at stopped
          exact stopped ▸ kmalloc_stop h size reason shape fits result
      | ok r =>
          rw [result, ok_bind] at stopped
          obtain ⟨_, _, shape'⟩ := kmalloc_ok h r.2 size r.1 shape fits result
          exact ih r.2 shape' (fun later member => small later (List.mem_cons_of_mem size member)) stopped

/-- One request, as every allocation of the ramfs makes it. -/
theorem kmalloc_follows (h : Heap σ) (size : Nat) (shape : HeapShape h) (small : size ≤ heapMaxSize) :
    Follows (fun heap r => r.2 = heap ∧ r.1 = h.bumpPtr ∧ r.2.bumpPtr = h.requiredEnd size ∧ HeapShape r.2)
      (allocs h [size]) (kmalloc h size) := by
  cases result : kmalloc h size with
  | error stop =>
      rw [allocs, result]
      exact .stop stop
  | ok r =>
      rw [allocs, result]
      exact .ok r.2 r ⟨rfl, kmalloc_ok h r.2 size r.1 shape small result⟩

end KehindeKernel
