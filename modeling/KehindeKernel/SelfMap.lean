import KehindeKernel.BootMap
import KehindeKernel.FrameOwnership
import KehindeKernel.HeapBacking

/-!
Page tables reach themselves: `map` and `translate` follow physical addresses
with the MMU on, so every table frame has to be mapped to itself. Tables are
managed frames, `mmu_init` maps those to themselves, and the heap only ever
writes leaves of its own window, also where a `map` runs out of frames half-way.
-/

namespace KehindeKernel

open Outcome TableTree

/-- Leaves outside the pages of a range keep their descriptor, whether or not
the loop finds frames for its tables. -/
theorem mapPages_frame (va phys flags trips i : Nat) (m : Machine) (wf : WellFormed m) (u : Nat)
    (apart : ∀ j, i ≤ j → j < i + trips → ¬ SamePage u (pageOf va j)) :
    (mapPages va phys flags trips i m).1.leaf u = m.leaf u := by
  induction trips generalizing i m with
  | zero => rfl
  | succ trips ih =>
      rw [mapPages]
      rcases mapPage_spec m wf ((va + i * pageSize) % 2 ^ 64) ((phys + i * pageSize) % 2 ^ 64) flags
        with ⟨tables, m1, done, added, written⟩ | ⟨m1, done, starved⟩
      · have other : ¬ SamePage u (pageOf va i) := apart i (Nat.le_refl i) (by omega)
        have here := written.leaves u
        rw [if_neg (by exact other)] at here
        simp only [done, ↓reduceIte]
        rw [ih (i + 1) m1 written.wellFormed (fun j low high => apart j (by omega) (by omega)), here,
          added.leaves u]
      · simp only [done, Bool.false_eq_true, ↓reduceIte]
        exact starved.leaves u

theorem map_frame (m : Machine) (wf : WellFormed m) (va phys size flags u : Nat)
    (apart : ∀ j, j < intTrips (size / pageSize) → ¬ SamePage u (pageOf va j)) :
    (map m va phys size flags).leaf u = m.leaf u := by
  have barrier := sameTables_emit m .dsbIshst
  rw [(map_edits m va phys size flags).leaf u,
    mapPages_frame va phys flags _ 0 _ (barrier.wellFormed wf) u
      (fun j _ below => apart j (by omega)),
    barrier.leaf u]

/-- A walk sees 39 bits of an address: these lie in the heap window. -/
def InWindow (v : Nat) : Prop := heapBase ≤ v % 2 ^ 39 ∧ v % 2 ^ 39 < heapBase + heapMaxSize

theorem samePage_walk (u e : Nat) (same : SamePage u e) (low : e < 2 ^ 39) :
    u % 2 ^ 39 / pageSize = e / pageSize := by
  obtain ⟨lower, upper⟩ := same
  simp only [SameTable, l3Path, List.cons.injEq, and_true, l1Index_eq, l2Index_eq, l3Index_eq]
    at lower upper
  simp only [pageSize]
  omega

theorem window_apart (u e : Nat) (outside : ¬ InWindow u) (base : heapBase ≤ e)
    (window : e < heapBase + heapMaxSize) : ¬ SamePage u e := by
  intro same
  simp only [InWindow, heapBase, heapMaxSize] at *
  have page := samePage_walk u e same (by omega)
  simp only [pageSize] at page
  omega

/-- The machine after some heap growth: the frames and tables are sound, and no
leaf outside the window has changed. -/
structure GrewHeap (m₀ m : Machine) : Prop where
  wellFormed : WellFormed m
  start : m.pmm.physMemStart = m₀.pmm.physMemStart
  total : m.pmm.totalFrames = m₀.pmm.totalFrames
  leaves : ∀ u, ¬ InWindow u → m.leaf u = m₀.leaf u

theorem GrewHeap.refl {m : Machine} (wf : WellFormed m) : GrewHeap m m where
  wellFormed := wf
  start := rfl
  total := rfl
  leaves := fun _ _ => rfl

/-- One heap page, mapped or given up half-way. -/
theorem GrewHeap.page {m₀ m m' : Machine} (grew : GrewHeap m₀ m) (e : Nat) (base : heapBase ≤ e)
    (window : e < heapBase + heapMaxSize) (grown : Backing.growPage m e = some m') :
    GrewHeap m₀ m' := by
  rcases growPage_spec m grew.wellFormed e with ⟨_, none⟩ | ⟨k, _, _, result⟩
  · rw [none] at grown
    contradiction
  · rw [result, Option.some.injEq] at grown
    subst grown
    have wf := grew.wellFormed.markUsed k
    obtain ⟨wf', tables⟩ := map_grown { m with pmm := m.pmm.markUsed k } wf e (m.pmm.frame k)
      pageSize pteNormalRw
    refine ⟨wf', tables.start.trans grew.start, tables.total.trans grew.total, ?_⟩
    intro u outside
    have kept := map_frame { m with pmm := m.pmm.markUsed k } wf e (m.pmm.frame k) pageSize
      pteNormalRw u (by
        intro j below
        have trips : intTrips (pageSize / pageSize) = 1 := by decide
        obtain rfl : j = 0 := by omega
        have here : pageOf e 0 = e := by
          simp only [pageOf, heapBase, heapMaxSize] at *
          omega
        rw [here]
        exact window_apart u e outside base window)
    rw [kept]
    exact grew.leaves u outside

theorem lazyMap_grew (m₀ : Machine) (requiredEnd trips : Nat) (h h' : Heap Machine)
    (grew : GrewHeap m₀ h.back) (base : heapBase ≤ h.heapEnd)
    (limit : requiredEnd ≤ heapBase + heapMaxSize)
    (done : lazyMap requiredEnd trips h = .ok h') : GrewHeap m₀ h'.back := by
  have grows := lazyMap_invariant requiredEnd (fun k => GrewHeap m₀ k.back ∧ heapBase ≤ k.heapEnd)
    (by
      rintro k back ⟨grew, base⟩ short grown
      have inside : k.heapEnd < heapBase + heapMaxSize := Nat.lt_of_lt_of_le short limit
      refine ⟨grew.page k.heapEnd base inside grown, ?_⟩
      simp only [heapBase, heapMaxSize, pageSize] at *
      omega)
    trips h h' ⟨grew, base⟩ done
  exact grows.1.1

theorem kmalloc_grew (m₀ : Machine) (h h' : Heap Machine) (size addr : Nat) (shape : HeapShape h)
    (small : size ≤ heapMaxSize) (grew : GrewHeap m₀ h.back) (done : kmalloc h size = .ok (addr, h')) :
    HeapShape h' ∧ GrewHeap m₀ h'.back := by
  obtain ⟨_, _, shape'⟩ := kmalloc_ok h h' size addr shape small done
  rw [kmalloc_eq h size (noWrap_small h size shape small)] at done
  by_cases past : h.requiredEnd size > heapBase + heapMaxSize
  · simp [past] at done
  · rw [if_neg past] at done
    obtain ⟨middle, mapped, rest⟩ := (bind_ok_iff _ _ _).mp done
    have kept := lazyMap_grew m₀ _ _ h middle grew (shape.base.trans shape.mapped)
      (Nat.not_lt.mp past) mapped
    simp only [pure_ok, Except.ok.injEq, Prod.mk.injEq] at rest
    obtain ⟨rfl, rfl⟩ := rest
    exact ⟨shape', kept⟩

theorem kmallocs_grew (m₀ : Machine) (sizes : List Nat) (h : Heap Machine) (shape : HeapShape h)
    (small : ∀ size ∈ sizes, size ≤ heapMaxSize) (grew : GrewHeap m₀ h.back) (addrs : List Nat)
    (last : Heap Machine) (done : kmallocs h sizes = .ok (addrs, last)) : GrewHeap m₀ last.back := by
  have fits := Replay.along_of_forall (fun (h : Heap Machine) size => kmalloc h size)
    (fun size => size ≤ heapMaxSize) sizes h small
  have kept := fits.invariant (fun k => HeapShape k ∧ GrewHeap m₀ k.back)
    (fun k size addr k' grew small first => kmalloc_grew m₀ k k' size addr grew.1 small grew.2 first)
    sizes h addrs last ⟨shape, grew⟩ done
  exact kept.2

theorem translate_wraps (m : Machine) (v : Nat) : translate m v = translate m (v % 2 ^ 39) := by
  have upper : l1Index (v % 2 ^ 39) = l1Index v := by rw [l1Index_eq, l1Index_eq]; omega
  have middle : l2Index (v % 2 ^ 39) = l2Index v := by rw [l2Index_eq, l2Index_eq]; omega
  have lower : l3Index (v % 2 ^ 39) = l3Index v := by rw [l3Index_eq, l3Index_eq]; omega
  have offset : v % 2 ^ 39 &&& 0xFFF = v &&& 0xFFF := by
    rw [show v % 2 ^ 39 &&& 0xFFF = v % 2 ^ 39 % 2 ^ 12 from BitField.and_low _ 12,
      show v &&& 0xFFF = v % 2 ^ 12 from BitField.and_low v 12]
    omega
  simp only [translate, upper, middle, lower, offset]

/-- A frame the PMM manages is mapped to itself, whatever the heap does. -/
theorem managed_maps_itself (board : Board) (p : Pmm) (m₀ m : Machine) (law : BootLaw board p m₀)
    (grew : GrewHeap m₀ m) (k : Nat) (below : k < m.pmm.totalFrames) :
    translate m (m.pmm.frame k) = m.pmm.frame k := by
  obtain ⟨_, _, high⟩ := frame_range m.pmm grew.wellFormed.sound k below
  have ram : Identity board (m.pmm.frame k) := Or.inl high
  simp only [physMemEnd] at high
  have outside : ¬ InWindow (m.pmm.frame k) := by
    simp only [InWindow, heapBase]
    omega
  rw [translate_congr _ (grew.leaves _ outside), law.addresses _ (by omega), if_pos ram]

/-- Once `mmu_init` has returned, every table frame is mapped to itself in every
state of the heap, and the heap changes no translation outside its window. -/
theorem tables_map_themselves (board : Board) (known : KnownBoard board) (kernelEnd : Nat)
    (low : 0x80000 ≤ kernelEnd) (memory : Nat → BitVec 64) (mem : Nat → Nat → Nat)
    (enough : EnoughFrames board kernelEnd (pmmInit kernelEnd memory)) (m : Machine)
    (done : mmuInit board kernelEnd memory mem = .ok m) (sizes : List Nat)
    (small : ∀ size ∈ sizes, size ≤ heapMaxSize) (addrs : List Nat) (h : Heap Machine)
    (ran : kmallocs (kheapInit m) sizes = .ok (addrs, h)) :
    (∀ path table, TablePath path → h.back.tableAt path = some table →
      translate h.back table = table) ∧
    ∀ v, ¬ InWindow v → translate h.back v = translate m v := by
  obtain ⟨m', returned, law⟩ := mmuInit_law board known kernelEnd low memory mem enough
  rw [done, Except.ok.injEq] at returned
  subst returned
  have grew := kmallocs_grew m sizes (kheapInit m) (kheapInit_shape m) small
    (GrewHeap.refl law.wellFormed) addrs h ran
  constructor
  · intro path table valid found
    obtain ⟨k, below, rfl, _⟩ := grew.wellFormed.owned path table valid found
    exact managed_maps_itself board _ m h.back law grew k below
  · intro v outside
    exact translate_congr v (grew.leaves v outside)

theorem lazyMap_one (requiredEnd trips : Nat) (h : Heap Machine) (back : Machine)
    (short : h.heapEnd < requiredEnd) (grown : Backing.growPage h.back h.heapEnd = some back)
    (covered : requiredEnd ≤ (h.heapEnd + pageSize) % 2 ^ 64) :
    lazyMap requiredEnd (trips + 1) h =
      .ok { h with heapEnd := (h.heapEnd + pageSize) % 2 ^ 64, back := back } := by
  simp only [lazyMap, if_pos short, grown]
  exact lazyMap_done requiredEnd trips _ covered

/-- The first page of the heap, when a frame is free. -/
theorem kmalloc_first_page (m : Machine) (wf : WellFormed m) (free : m.pmm.freeFrames.card ≠ 0) :
    ∃ addr h, kmalloc (kheapInit m) 16 = .ok (addr, h) ∧ heapBase < h.heapEnd := by
  rcases growPage_spec m wf heapBase with ⟨none, _⟩ | ⟨k, _, _, grown⟩
  · rw [none] at free
    exact absurd rfl free
  · have shape := kheapInit_shape m
    have small : 16 ≤ heapMaxSize := by decide
    have fits : ¬ heapBase + 16 > heapBase + heapMaxSize := by decide
    have short : heapBase < heapBase + 16 := by decide
    have covered : heapBase + 16 ≤ (heapBase + pageSize) % 2 ^ 64 := by decide
    obtain ⟨trips, count⟩ : ∃ trips, heapMaxSize / pageSize = trips + 1 := ⟨255, by decide⟩
    have ends : (kheapInit m).requiredEnd 16 = heapBase + 16 := rfl
    have returned := kmalloc_eq (kheapInit m) 16 (noWrap_small _ 16 shape small)
    rw [ends, if_neg fits, count, lazyMap_one _ trips (kheapInit m) _ short grown covered,
      ok_bind] at returned
    refine ⟨_, _, returned, ?_⟩
    obtain ⟨_, bump, after⟩ := kmalloc_ok _ _ 16 _ shape small returned
    have mapped := after.mapped
    rw [bump, ends] at mapped
    exact Nat.lt_of_lt_of_le short mapped

theorem kmallocs_one (h h' : Heap Machine) (size addr : Nat)
    (done : kmalloc h size = .ok (addr, h')) : kmallocs h [size] = .ok ([addr], h') :=
  (Replay.attempt_cons_ok _ h size [] [addr] h').mpr ⟨addr, h', [], done, rfl, rfl⟩

/-- A small kernel on the first board has frames to spare for the heap. -/
theorem small_kernel_boots : ∃ m, mmuInit boardPi3 0x80000 (fun _ => 0#64) (fun _ _ => 0) = .ok m ∧
    BootLaw boardPi3 (pmmInit 0x80000 fun _ => 0#64) m ∧ 3 ≤ m.pmm.freeFrames.card := by
  have known : KnownBoard boardPi3 := Or.inl rfl
  have room : 1543 ≤ (pmmInit 0x80000 fun _ => 0#64).totalFrames := by decide +kernel
  have enough := enough_frames boardPi3 known 0x80000 (fun _ => 0#64) (by decide) (by decide)
    (by omega)
  obtain ⟨m, done, law⟩ := mmuInit_law boardPi3 known 0x80000 (by decide) (fun _ => 0#64)
    (fun _ _ => 0) enough
  have begins := pmmInit_start 0x80000 (fun _ => 0#64) (by decide) (by decide)
  have bound := bootTables_card boardPi3 known _ begins
  have free := law.free
  exact ⟨m, done, law, by omega⟩

theorem tables_map_themselves_small_kernel :
    ∃ m addrs h, mmuInit boardPi3 0x80000 (fun _ => 0#64) (fun _ _ => 0) = .ok m ∧
      kmallocs (kheapInit m) [16] = .ok (addrs, h) ∧
      (∀ path table, TablePath path → h.back.tableAt path = some table →
        translate h.back table = table) ∧
      ∀ v, ¬ InWindow v → translate h.back v = translate m v := by
  obtain ⟨m, done, law, free⟩ := small_kernel_boots
  obtain ⟨addr, h, first, _⟩ := kmalloc_first_page m law.wellFormed (by omega)
  have ran := kmallocs_one (kheapInit m) h 16 addr first
  exact ⟨m, [addr], h, done, ran, tables_map_themselves boardPi3 (Or.inl rfl) 0x80000 (by decide)
    (fun _ => 0#64) (fun _ _ => 0)
    (enough_frames boardPi3 (Or.inl rfl) 0x80000 (fun _ => 0#64) (by decide) (by decide)
      (by decide +kernel)) m done [16] (by decide) [addr] h ran⟩

/-- A walk drops the bits above the 39th: the first heap page also appears at
HEAP_BASE + 2^39. -/
theorem heap_page_seen_above :
    ¬ ∀ (board : Board) (_ : KnownBoard board) (kernelEnd : Nat) (_ : 0x80000 ≤ kernelEnd)
      (memory : Nat → BitVec 64) (mem : Nat → Nat → Nat)
      (_ : EnoughFrames board kernelEnd (pmmInit kernelEnd memory)) (m : Machine)
      (_ : mmuInit board kernelEnd memory mem = .ok m) (sizes : List Nat)
      (_ : ∀ size ∈ sizes, size ≤ heapMaxSize) (addrs : List Nat) (h : Heap Machine)
      (_ : kmallocs (kheapInit m) sizes = .ok (addrs, h)),
      (∀ path table, TablePath path → h.back.tableAt path = some table →
        translate h.back table = table) ∧
      ∀ v, v < 2 ^ 64 → ¬ (heapBase ≤ v ∧ v < heapBase + heapMaxSize) →
        translate h.back v = translate m v := by
  intro claimed
  obtain ⟨m, done, law, free⟩ := small_kernel_boots
  have small : ∀ size ∈ [16], size ≤ heapMaxSize := by decide
  obtain ⟨addr, h, first, mapped⟩ := kmalloc_first_page m law.wellFormed (by omega)
  have ran := kmallocs_one (kheapInit m) h 16 addr first
  have enough := enough_frames boardPi3 (Or.inl rfl) 0x80000 (fun _ => 0#64) (by decide) (by decide)
    (by decide +kernel)
  have outside := (claimed boardPi3 (Or.inl rfl) 0x80000 (by decide) _ _ enough m done [16] small
    [addr] h ran).2 (heapBase + 2 ^ 39) (by decide) (by decide)
  have wraps : (heapBase + 2 ^ 39) % 2 ^ 39 = heapBase := by decide
  rw [translate_wraps, translate_wraps m, wraps] at outside
  -- the page was unmapped before the call and has a frame after it
  have before : translate m heapBase = 2 ^ 64 - 1 := by
    rw [law.addresses heapBase (by decide), if_neg (by decide)]
  have tables : windowTables m ≤ 2 := by
    rw [windowTables, missing_singleton]
    exact (Finset.card_filter_le _ _).trans Finset.card_le_two
  have funded : FundedRun (kheapInit m) [16] := by
    refine ⟨fun _ _ _ _ => ?_, fun _ _ _ => trivial⟩
    show windowTables m < m.pmm.freeFrames.card
    omega
  have ok := kmallocs_backed (kheapInit m) [16] (kheapInit_ok m law.wellFormed) small funded [addr] h ran
  obtain ⟨k, below, address, _⟩ := ok.backed heapBase (Nat.le_refl _) mapped (by decide)
  obtain ⟨_, _, high⟩ := frame_range h.back.pmm ok.wellFormed.sound k below
  rw [before, address] at outside
  simp only [physMemEnd] at high
  omega

end KehindeKernel
