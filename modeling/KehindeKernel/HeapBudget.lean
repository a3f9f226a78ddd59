import KehindeKernel.HeapAlloc

/-!
When the heap runs out. A store that does not run dry of pages leaves `kmalloc`
one reason to panic: the request ends behind the window. So a heap is a number of
bytes that requests are paid from, each rounded up to sixteen.
-/

namespace KehindeKernel

open Outcome

variable {σ : Type}

/-- The bytes of the window that no request has taken. -/
def Heap.room (h : Heap σ) : Nat := heapBase + heapMaxSize - h.bumpPtr

def footprint (sizes : List Nat) : Nat := (sizes.map fun size => (size + 15) / 16 * 16).sum

/-- Pay from a budget, or panic. -/
def spend (room cost : Nat) : Run Nat := if cost ≤ room then pure (room - cost) else throw .panic

@[simp] theorem footprint_nil : footprint [] = 0 := rfl

@[simp] theorem footprint_cons (size : Nat) (rest : List Nat) :
    footprint (size :: rest) = (size + 15) / 16 * 16 + footprint rest := rfl

theorem footprint_append (front back : List Nat) :
    footprint (front ++ back) = footprint front + footprint back := by
  rw [footprint, List.map_append, List.sum_append]
  rfl

theorem footprint_replicate (n size : Nat) :
    footprint (List.replicate n size) = n * ((size + 15) / 16 * 16) := by
  induction n with
  | zero => simp
  | succ n ih => rw [List.replicate_succ, footprint_cons, ih, Nat.succ_mul, Nat.add_comm]

theorem spend_add (room first later : Nat) :
    spend room (first + later) = spend room first >>= fun left => spend left later := by
  simp only [spend]
  by_cases paid : first ≤ room
  · by_cases both : first + later ≤ room
    · rw [if_pos both, if_pos paid, pure_ok, pure_ok, ok_bind, if_pos (by omega), pure_ok, Nat.sub_sub]
    · rw [if_neg both, if_pos paid, pure_ok, ok_bind, if_neg (by omega)]
  · rw [if_neg paid, if_neg (by omega)]
    rfl

variable [Backing σ]

/-- The store gives `n` pages of the window, one after the other, whichever they are. -/
def Ample : Nat → σ → Prop
  | 0, _ => True
  | n + 1, back => ∀ va, heapBase ≤ va → va < heapBase + heapMaxSize → va % pageSize = 0 →
      ∃ next, Backing.growPage back va = some next ∧ Ample n next

/-- Every page the window still has room for can be had. -/
def Supplied (h : Heap σ) : Prop := Ample ((heapBase + heapMaxSize - h.heapEnd) / pageSize) h.back

theorem kheapInit_supplied (back : σ) (ample : Ample (heapMaxSize / pageSize) back) :
    Supplied (kheapInit back) := by
  have all : heapBase + heapMaxSize - heapBase = heapMaxSize := Nat.add_sub_cancel_left _ _
  rw [Supplied, kheapInit, all]
  exact ample

/-- With pages to be had the loop covers every request inside the window. -/
theorem lazyMap_supplied (requiredEnd trips : Nat) (h : Heap σ) (shape : HeapShape h)
    (limit : requiredEnd ≤ heapBase + heapMaxSize) (enough : requiredEnd ≤ h.heapEnd + trips * pageSize)
    (supplied : Supplied h) : ∃ h', lazyMap requiredEnd trips h = .ok h' ∧ Supplied h' := by
  induction trips generalizing h with
  | zero =>
      have covered : requiredEnd ≤ h.heapEnd := by omega
      exact ⟨h, lazyMap_done requiredEnd 0 h covered, supplied⟩
  | succ trips ih =>
      by_cases short : h.heapEnd < requiredEnd
      · have base := shape.base.trans shape.mapped
        have page := shape.page
        have window : h.heapEnd < heapBase + heapMaxSize := Nat.lt_of_lt_of_le short limit
        have next : (h.heapEnd + pageSize) % 2 ^ 64 = h.heapEnd + pageSize := by
          simp only [heapBase, heapMaxSize, pageSize] at *
          omega
        obtain ⟨left, count⟩ : ∃ n, (heapBase + heapMaxSize - h.heapEnd) / pageSize = n + 1 := by
          refine ⟨(heapBase + heapMaxSize - (h.heapEnd + pageSize)) / pageSize, ?_⟩
          simp only [heapBase, heapMaxSize, pageSize] at *
          omega
        rw [Supplied, count] at supplied
        obtain ⟨back, grown, ample⟩ := supplied h.heapEnd base window page
        have later := ih { h with heapEnd := (h.heapEnd + pageSize) % 2 ^ 64, back := back } (by
          rw [next]
          refine ⟨shape.base, shape.aligned, Nat.le_trans shape.mapped (Nat.le_add_right _ _), ?_, ?_⟩
          · dsimp only
            rw [Nat.add_mod_right]
            exact page
          · simp only [heapBase, heapMaxSize, pageSize] at *
            omega) (by
          rw [next]
          dsimp only
          rw [Nat.add_assoc, Nat.add_comm pageSize, ← Nat.succ_mul]
          exact enough) (by
          have fewer : (heapBase + heapMaxSize - (h.heapEnd + pageSize)) / pageSize = left := by
            simp only [heapBase, heapMaxSize, pageSize] at *
            omega
          rw [next, Supplied, fewer]
          exact ample)
        rw [lazyMap, if_pos short, grown]
        exact later
      · exact ⟨h, lazyMap_done requiredEnd _ h (Nat.not_lt.mp short), supplied⟩

theorem kmalloc_budget (h : Heap σ) (size : Nat) (shape : HeapShape h) (small : size ≤ heapMaxSize)
    (supplied : Supplied h) :
    Follows (fun room r => r.2.room = room ∧ HeapShape r.2 ∧ Supplied r.2)
      (spend h.room ((size + 15) / 16 * 16)) (kmalloc h size) := by
  have straight := noWrap_small h size shape small
  have base := shape.base
  have mapped := shape.mapped
  have window := shape.window
  by_cases past : h.requiredEnd size > heapBase + heapMaxSize
  · have beyond : ¬ (size + 15) / 16 * 16 ≤ h.room := by
      rw [Heap.requiredEnd] at past
      rw [Heap.room]
      omega
    rw [kmalloc_eq h size straight, if_pos past, spend, if_neg beyond]
    exact .stop .panic
  · have fits : (size + 15) / 16 * 16 ≤ h.room := by
      rw [Heap.requiredEnd] at past
      rw [Heap.room]
      omega
    have limit := Nat.not_lt.mp past
    obtain ⟨middle, served, left⟩ := lazyMap_supplied (h.requiredEnd size) (heapMaxSize / pageSize) h shape
      limit (by simp only [heapBase, heapMaxSize, pageSize] at *; omega) supplied
    have done : kmalloc h size = .ok (middle.bumpPtr,
        { middle with bumpPtr := (middle.bumpPtr + alignRequest size) % 2 ^ 64 }) := by
      rw [kmalloc_eq h size straight, if_neg past, served]
      rfl
    obtain ⟨_, moved, shape'⟩ := kmalloc_straight h _ size _ shape straight done
    rw [done, spend, if_pos fits]
    refine .ok _ _ ⟨?_, shape', left⟩
    rw [Heap.room, moved, Heap.requiredEnd, Heap.room]
    omega

theorem allocs_follows (sizes : List Nat) (h : Heap σ) (shape : HeapShape h)
    (small : ∀ size ∈ sizes, size ≤ heapMaxSize) (supplied : Supplied h) :
    Follows (fun room h' => h'.room = room ∧ HeapShape h' ∧ Supplied h')
      (spend h.room (footprint sizes)) (allocs h sizes) := by
  induction sizes generalizing h with
  | nil => exact .ok _ _ ⟨rfl, shape, supplied⟩
  | cons size rest ih =>
      rw [footprint_cons, spend_add, allocs]
      apply (kmalloc_budget h size shape (small size List.mem_cons_self) supplied).bind
      rintro _ ⟨addr, h'⟩ ⟨rfl, shape', supplied'⟩
      exact ih h' shape' (fun later member => small later (List.mem_cons_of_mem size member)) supplied'

end KehindeKernel
