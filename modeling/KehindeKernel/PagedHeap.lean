import KehindeKernel.HeapBudget
import KehindeKernel.DeviceFrames
import KehindeKernel.HeapBacking

/-!
The heap on a machine with frames to spare. A free frame for each page of the
window and one for each table on the way is all the heap can ask for. Where more
frames are free than the devices cover, the lowest one is RAM, so every byte of the
heap is a byte of RAM of its own.
-/

namespace KehindeKernel

open Outcome TableTree

theorem heapRequest_aligned (p : Pmm) (sound : p.Sound) (va k : Nat) (page : va % pageSize = 0)
    (window : va < heapBase + heapMaxSize) (below : k < p.totalFrames) :
    (heapRequest va (p.frame k)).Aligned := by
  obtain ⟨framePage, _, _⟩ := frame_address p sound k below
  have tiled := sound.tiled
  refine ⟨page, framePage, by simp [heapRequest], ?_, ?_, show pteNormalRw &&& addrMask = 0 by decide⟩
  · simp only [heapRequest, heapBase, heapMaxSize, pageSize] at *
    omega
  · simp only [heapRequest, Pmm.frame, pageSize, physMemEnd] at *
    omega

theorem growPage_least (m m' : Machine) (wf : WellFormed m) (va : Nat) (grown : Backing.growPage m va = some m') :
    ∃ k, k < m.pmm.totalFrames ∧ m.pmm.used k = false ∧ (∀ j, j < k → m.pmm.used j = true) ∧
      (heapRequest va (m.pmm.frame k)).apply { m with pmm := m.pmm.markUsed k } = m' := by
  rcases allocFrame_spec m.pmm wf.sound with ⟨k, below, unused, least, alloc⟩ | ⟨_, alloc⟩
  · simp only [Backing.growPage, alloc, if_neg (frame_address m.pmm wf.sound k below).2.2] at grown
    exact ⟨k, below, unused, least, Option.some.inj grown⟩
  · simp [Backing.growPage, alloc] at grown

section Supply

variable {m : Machine} (wf : WellFormed m) {va k : Nat} (base : heapBase ≤ va)
  (window : va < heapBase + heapMaxSize) (page : va % pageSize = 0) (below : k < m.pmm.totalFrames)
  (unused : m.pmm.used k = false)

include wf base window page below unused

/-- A page costs its frame and no more than the tables the window misses. -/
theorem grow_pays (spare : Nat) (enough : windowTables m + (spare + 1) ≤ m.pmm.freeFrames.card) :
    windowTables ((heapRequest va (m.pmm.frame k)).apply { m with pmm := m.pmm.markUsed k }) + spare ≤
      ((heapRequest va (m.pmm.frame k)).apply { m with pmm := m.pmm.markUsed k }).pmm.freeFrames.card := by
  have cost := freeFrames_card m.pmm k below unused
  have walks : Machine.missingTables { m with pmm := m.pmm.markUsed k } ({va} ∪ {heapBase}) =
      m.missingTables {heapBase} := by
    have same := (window_walk va base window).1
    rw [Machine.missingTables, Machine.missingTables, Finset.union_biUnion, Finset.singleton_biUnion,
      Finset.singleton_biUnion, same, Finset.union_idempotent]
    rfl
  apply map_budget _ (wf.markUsed k) _ (heapRequest_aligned m.pmm wf.sound va k page window below)
  rw [heapRequest_pages, walks]
  rw [windowTables] at enough
  dsimp only
  omega

theorem grow_law (enough : windowTables m < m.pmm.freeFrames.card) :
    MapLaw { m with pmm := m.pmm.markUsed k }
      ((heapRequest va (m.pmm.frame k)).apply { m with pmm := m.pmm.markUsed k })
      (heapRequest va (m.pmm.frame k)) := by
  have cost := freeFrames_card m.pmm k below unused
  apply map_law _ (wf.markUsed k) _ (heapRequest_aligned m.pmm wf.sound va k page window below)
  rw [MapRequest.Affordable, heapRequest_pages]
  have missing : (Machine.missingTables { m with pmm := m.pmm.markUsed k } {va}).card = windowTables m :=
    window_missing m va base window
  rw [missing]
  dsimp only
  omega

end Supply

/-- Frames for the tables and for `n` pages are a store of `n` pages. -/
theorem ample_of_frames (n : Nat) (m : Machine) (wf : WellFormed m)
    (enough : windowTables m + n ≤ m.pmm.freeFrames.card) : Ample n m := by
  induction n generalizing m with
  | zero => trivial
  | succ n ih =>
      intro va base window page
      rcases growPage_spec m wf va with ⟨none_, _⟩ | ⟨k, below, unused, grown⟩
      · rw [none_, Finset.card_empty] at enough
        omega
      · have paid := grow_pays wf base window page below unused n enough
        have law := grow_law wf base window page below unused (by omega)
        exact ⟨_, grown, ih _ law.wellFormed paid⟩

theorem windowTables_le (m : Machine) : windowTables m ≤ 2 := by
  rw [windowTables, missing_singleton]
  exact (Finset.card_filter_le _ _).trans Finset.card_le_two

/-- On the Pi 3 the last 2048 managed frames are device registers. -/
def deviceFrames : Nat := 2048

/-- With more frames free than devices cover, the lowest free one is RAM. -/
theorem least_free_ram (board : Board) (known : KnownBoard board) (p : Pmm) (sound : p.Sound) (k : Nat)
    (below : k < p.totalFrames) (least : ∀ j, j < k → p.used j = true)
    (many : deviceFrames < p.freeFrames.card) : p.frame k < board.peripheralBase := by
  obtain ⟨_, _, high⟩ := frame_range p sound k below
  rcases known with rfl | rfl
  · by_contra device
    have later : p.freeFrames ⊆ Finset.Ico k p.totalFrames := by
      intro j member
      obtain ⟨range, free⟩ := (mem_freeFrames p j).mp member
      rw [Finset.mem_Ico]
      refine ⟨Nat.le_of_not_lt fun earlier => ?_, range⟩
      rw [least j earlier] at free
      exact Bool.false_ne_true free.symm
    have few := Finset.card_le_card later
    rw [Nat.card_Ico] at few
    have tiled := sound.tiled
    simp only [boardPi3, Pmm.frame, pageSize, physMemEnd, deviceFrames] at *
    omega
  · exact Nat.lt_trans high (by decide)

theorem translate_offset (m : Machine) (v : Nat) (mapped : translate m (v / pageSize * pageSize) ≠ 2 ^ 64 - 1) :
    translate m v = translate m (v / pageSize * pageSize) + v % pageSize := by
  have page : m.leaf v = m.leaf (v / pageSize * pageSize) := by
    have l1 : l1Index v = l1Index (v / pageSize * pageSize) := by
      rw [l1Index_eq, l1Index_eq, pageSize]
      omega
    have l2 : l2Index v = l2Index (v / pageSize * pageSize) := by
      rw [l2Index_eq, l2Index_eq, pageSize]
      omega
    have l3 : l3Index v = l3Index (v / pageSize * pageSize) := by
      rw [l3Index_eq, l3Index_eq, pageSize]
      omega
    rw [Machine.leaf, Machine.leaf, l3Path, l3Path, l1, l2, l3]
  have marked : m.leaf (v / pageSize * pageSize) &&& 0b11 = 0b11 := by
    by_contra unmarked
    rw [translate_leaf, if_neg unmarked] at mapped
    exact mapped rfl
  have first : v / pageSize * pageSize &&& 0xFFF = 0 := by
    rw [show (0xFFF : Nat) = 2 ^ 12 - 1 from rfl, BitField.and_low, pageSize]
    omega
  have offset : v &&& 0xFFF = v % pageSize := BitField.and_low v 12
  have aligned : (m.leaf (v / pageSize * pageSize) &&& addrMask) % 2 ^ 12 = 0 := by
    rw [show addrMask = 2 ^ 48 - 2 ^ 12 from rfl, BitField.and_mask _ 12 48 (by decide)]
    exact Nat.mul_mod_left _ _
  rw [translate_leaf, translate_leaf, page, if_pos marked, if_pos marked, first, offset, Nat.or_zero]
  exact BitField.or_disjoint _ _ 12 aligned (Nat.mod_lt v (by decide))

theorem descriptor_low (page flags : Nat) (aligned : page % pageSize = 0) (small : flags ||| 0b11 < pageSize) :
    (page ||| flags ||| 0b11) % pageSize = flags ||| 0b11 := by
  rw [Nat.or_assoc, BitField.or_disjoint page _ 12 aligned small, Nat.add_mod, aligned, Nat.zero_add, Nat.mod_mod]
  exact Nat.mod_eq_of_lt small

/-- A heap whose pages all lie in RAM, on what was the machine `m`. -/
structure Paged (board : Board) (m : Machine) (h : Heap Machine) : Prop where
  shape : HeapShape h
  wellFormed : WellFormed h.back
  start : h.back.pmm.physMemStart = m.pmm.physMemStart
  backed : Backed h.back h.heapEnd
  spare : windowTables h.back + ((heapBase + heapMaxSize - h.heapEnd) / pageSize + deviceFrames) ≤
    h.back.pmm.freeFrames.card
  ram : ∀ v, heapBase ≤ v → v < h.heapEnd → v % pageSize = 0 → translate h.back v < board.peripheralBase
  normal : ∀ v, heapBase ≤ v → v < h.heapEnd → h.back.leaf v % pageSize = pteNormalRw
  elsewhere : ∀ v, v < 2 ^ 39 → ¬ (heapBase ≤ v ∧ v < h.heapEnd) → h.back.leaf v = m.leaf v

theorem kheapInit_paged (board : Board) (m : Machine) (wf : WellFormed m)
    (enough : 2 + heapMaxSize / pageSize + deviceFrames ≤ m.pmm.freeFrames.card) :
    Paged board m (kheapInit m) where
  shape := kheapInit_shape m
  wellFormed := wf
  start := rfl
  backed := (kheapInit_ok m wf).backed
  spare := by
    have tables := windowTables_le m
    simp only [kheapInit, Nat.add_sub_cancel_left]
    omega
  ram := fun _ low high _ => absurd high (Nat.not_lt.mpr low)
  normal := fun _ low high => absurd high (Nat.not_lt.mpr low)
  elsewhere := fun _ _ _ => rfl

section Growing

variable {board : Board} {m : Machine} {h : Heap Machine}

theorem Paged.grow (known : KnownBoard board) (paged : Paged board m h)
    (inside : h.heapEnd < heapBase + heapMaxSize) (back : Machine)
    (grown : Backing.growPage h.back h.heapEnd = some back) :
    Paged board m { h with heapEnd := (h.heapEnd + pageSize) % 2 ^ 64, back := back } := by
  have wf := paged.wellFormed
  have page := paged.shape.page
  have base := paged.shape.base.trans paged.shape.mapped
  have spare := paged.spare
  have next : (h.heapEnd + pageSize) % 2 ^ 64 = h.heapEnd + pageSize := by
    simp only [heapBase, heapMaxSize, pageSize] at *
    omega
  obtain ⟨rest, count⟩ : ∃ rest, (heapBase + heapMaxSize - (h.heapEnd + pageSize)) / pageSize = rest := ⟨_, rfl⟩
  have left : (heapBase + heapMaxSize - h.heapEnd) / pageSize = rest + 1 := by
    rw [← count]
    simp only [heapBase, heapMaxSize, pageSize] at *
    omega
  rw [left] at spare
  obtain ⟨k, below, unused, least, rfl⟩ := growPage_least h.back back wf h.heapEnd grown
  have law := grow_law wf base inside page below unused (by omega)
  have paid := grow_pays wf base inside page below unused (rest + deviceFrames) (by omega)
  have backed := (map_backed h.back wf h.heapEnd k paged.backed base inside page below unused (by
    have cost := freeFrames_card h.back.pmm k below unused
    omega)).2.1
  have frameRam := least_free_ram board known h.back.pmm wf.sound k below least (by omega)
  -- what the one request overlays, page by page
  have address : ∀ v, v < 2 ^ 39 →
      translate ((heapRequest h.heapEnd (h.back.pmm.frame k)).apply { h.back with pmm := h.back.pmm.markUsed k }) v =
        if h.heapEnd ≤ v ∧ v < h.heapEnd + pageSize then h.back.pmm.frame k + (v - h.heapEnd)
        else translate h.back v := fun v small => law.addresses v small
  have low : h.heapEnd + pageSize ≤ 2 ^ 39 := by
    simp only [heapBase, heapMaxSize, pageSize] at *
    omega
  have leaf : ∀ v, v < 2 ^ 39 →
      ((heapRequest h.heapEnd (h.back.pmm.frame k)).apply { h.back with pmm := h.back.pmm.markUsed k }).leaf v =
        if h.heapEnd ≤ v ∧ v < h.heapEnd + pageSize then
          (h.back.pmm.frame k + (v - h.heapEnd) / pageSize * pageSize) ||| pteNormalRw ||| 0b11
        else h.back.leaf v := fun v small => law.descriptors v small
  rw [next]
  refine ⟨⟨paged.shape.base, paged.shape.aligned, paged.shape.mapped.trans (Nat.le_add_right _ _), ?_, ?_⟩,
    law.wellFormed, law.grown.start.trans paged.start, backed, count ▸ paid, ?_, ?_, ?_⟩
  · dsimp only
    rw [Nat.add_mod_right]
    exact page
  · simp only [heapBase, heapMaxSize, pageSize] at *
    omega
  · intro v lowV highV pageV
    rw [address v (Nat.lt_of_lt_of_le highV low)]
    rcases page_cases v h.heapEnd pageV page highV with earlier | newest
    · rw [if_neg (fun covered => Nat.not_le.mpr earlier covered.1)]
      exact paged.ram v lowV earlier pageV
    · rw [newest, if_pos ⟨Nat.le_refl _, Nat.lt_add_of_pos_right (by decide)⟩, Nat.sub_self, Nat.add_zero]
      exact frameRam
  · intro v lowV highV
    rw [leaf v (Nat.lt_of_lt_of_le highV low)]
    by_cases newest : h.heapEnd ≤ v ∧ v < h.heapEnd + pageSize
    · have first : (v - h.heapEnd) / pageSize = 0 := Nat.div_eq_of_lt (by omega)
      rw [if_pos newest, first, Nat.zero_mul, Nat.add_zero]
      exact descriptor_low _ pteNormalRw (frame_address h.back.pmm wf.sound k below).1 (by decide)
    · rw [if_neg newest]
      exact paged.normal v lowV (Nat.lt_of_not_le fun above => newest ⟨above, highV⟩)
  · intro v small outside
    rw [leaf v small, if_neg (fun covered => outside ⟨base.trans covered.1, covered.2⟩)]
    exact paged.elsewhere v small fun old => outside ⟨old.1, Nat.lt_add_right pageSize old.2⟩

theorem Paged.kmalloc (known : KnownBoard board) (paged : Paged board m h) (size p : Nat)
    (h' : Heap Machine) (small : size ≤ heapMaxSize) (served : kmalloc h size = .ok (p, h')) :
    Paged board m h' := by
  obtain ⟨_, _, shape⟩ := kmalloc_ok h h' size p paged.shape small served
  rw [kmalloc_eq h size (noWrap_small h size paged.shape small)] at served
  by_cases past : h.requiredEnd size > heapBase + heapMaxSize
  · simp [past] at served
  · rw [if_neg past] at served
    obtain ⟨middle, mapped, rest⟩ := (bind_ok_iff _ _ _).mp served
    obtain ⟨grown, _⟩ := lazyMap_invariant (h.requiredEnd size) (Paged board m)
      (fun g back holds short taken => holds.grow known (Nat.lt_of_lt_of_le short (Nat.not_lt.mp past)) back taken)
      _ h middle paged mapped
    obtain ⟨rfl, rfl⟩ := Prod.mk.inj (Except.ok.inj rest)
    exact ⟨shape, grown.wellFormed, grown.start, grown.backed, grown.spare, grown.ram, grown.normal, grown.elsewhere⟩

theorem window_page (v e : Nat) (low : heapBase ≤ v) (high : v < e) :
    heapBase ≤ v / pageSize * pageSize ∧ v / pageSize * pageSize < e := by
  refine ⟨?_, Nat.lt_of_le_of_lt (Nat.div_mul_le_self v _) high⟩
  simp only [heapBase, pageSize] at *
  omega

theorem Paged.byte (paged : Paged board m h) (known : KnownBoard board) (v : Nat) (low : heapBase ≤ v)
    (high : v < h.heapEnd) : ∃ k, k < h.back.pmm.totalFrames ∧ h.back.pmm.used k = true ∧
      (∀ path, TablePath path → h.back.tableAt path ≠ some (h.back.pmm.frame k)) ∧
      translate h.back (v / pageSize * pageSize) = h.back.pmm.frame k ∧
      translate h.back v = h.back.pmm.frame k + v % pageSize ∧
      h.back.pmm.frame k + pageSize ≤ board.peripheralBase := by
  obtain ⟨lowPage, highPage⟩ := window_page v h.heapEnd low high
  have aligned : v / pageSize * pageSize % pageSize = 0 := Nat.mul_mod_left _ _
  obtain ⟨k, below, address, used, data, _⟩ := paged.backed _ lowPage highPage aligned
  obtain ⟨framePage, _, frameHigh⟩ := frame_range h.back.pmm paged.wellFormed.sound k below
  have ram := paged.ram _ lowPage highPage aligned
  rw [address] at ram
  refine ⟨k, below, used, data, address, ?_, ?_⟩
  · rw [translate_offset h.back v (by rw [address]; simp only [physMemEnd] at frameHigh; omega), address]
  · have devicePage : board.peripheralBase % pageSize = 0 := by
      rcases known with rfl | rfl
      · decide
      · decide
    simp only [pageSize] at *
    omega

/-- No two heap bytes share a byte of RAM. -/
theorem Paged.injective (paged : Paged board m h) (known : KnownBoard board) (u v : Nat)
    (lowU : heapBase ≤ u) (highU : u < h.heapEnd) (lowV : heapBase ≤ v) (highV : v < h.heapEnd)
    (same : translate h.back u = translate h.back v) : u = v := by
  obtain ⟨j, _, _, _, pageU, atU, _⟩ := paged.byte known u lowU highU
  obtain ⟨k, _, _, _, pageV, atV, _⟩ := paged.byte known v lowV highV
  obtain ⟨lowPageU, highPageU⟩ := window_page u h.heapEnd lowU highU
  obtain ⟨lowPageV, highPageV⟩ := window_page v h.heapEnd lowV highV
  -- the offsets agree because frames are whole pages, so the frames agree as well
  have start := paged.wellFormed.sound.aligned
  rw [atU, atV] at same
  have parts : u % pageSize = v % pageSize ∧ h.back.pmm.frame j = h.back.pmm.frame k := by
    simp only [Pmm.frame, pageSize] at *
    omega
  obtain ⟨_, _, _, _, _, alone⟩ := paged.backed _ lowPageV highPageV (Nat.mul_mod_left _ _)
  have page := alone _ lowPageU highPageU (Nat.mul_mod_left _ _) (by rw [pageU, pageV, parts.2])
  calc
    u = u / pageSize * pageSize + u % pageSize := (Nat.div_add_mod' u pageSize).symm
    _ = v / pageSize * pageSize + v % pageSize := by rw [page, parts.1]
    _ = v := Nat.div_add_mod' v pageSize

end Growing

end KehindeKernel
