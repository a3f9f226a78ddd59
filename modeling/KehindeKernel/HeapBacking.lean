import KehindeKernel.HeapAlloc
import KehindeKernel.MapRefinement
import KehindeKernel.Lib.Replay

/-!
The heap over the real machine. A page of the window costs its data frame and
the tables `map` still has to link. `map` gives up silently when a table cannot
be had, and `kmalloc` counts the page as mapped all the same: the last page of a
request is then handed out without a frame.
-/

namespace KehindeKernel

open Outcome TableTree

instance : Backing Machine where
  growPage m va :=
    let frame := allocFrame m.pmm
    if frame.1 = 0 then none
    else some (map { m with pmm := frame.2 } va frame.1 pageSize pteNormalRw)

/-- Every page of `[HEAP_BASE, heapEnd)` has a frame of its own that is marked
used and is no page table. -/
def Backed (m : Machine) (heapEnd : Nat) : Prop :=
  ∀ v, heapBase ≤ v → v < heapEnd → v % pageSize = 0 →
    ∃ k, k < m.pmm.totalFrames ∧ translate m v = m.pmm.frame k ∧ m.pmm.used k = true ∧
      (∀ path, TablePath path → m.tableAt path ≠ some (m.pmm.frame k)) ∧
      (∀ u, heapBase ≤ u → u < heapEnd → u % pageSize = 0 → translate m u = translate m v → u = v)

/-- The page-table cost of the heap window, the same for each of its pages. -/
def windowTables (m : Machine) : Nat := (m.missingTables {heapBase}).card

/-- The call that maps exactly one page has a frame for the page and one for each
table. With no free frame at all it panics, and so does a longer call that runs
short. -/
def Funded (h : Heap Machine) (size : Nat) : Prop :=
  h.heapEnd < h.requiredEnd size → h.requiredEnd size ≤ h.heapEnd + pageSize →
    h.requiredEnd size ≤ heapBase + heapMaxSize → h.back.pmm.freeFrames.card ≠ 0 →
    windowTables h.back < h.back.pmm.freeFrames.card

theorem window_walk (v : Nat) (low : heapBase ≤ v) (high : v < heapBase + heapMaxSize) :
    pagePaths v = pagePaths heapBase ∧ l3Path v = l3Path heapBase := by
  have upper : l1Index v = l1Index heapBase := by
    simp only [heapBase, heapMaxSize] at *
    rw [l1Index_eq, l1Index_eq]
    omega
  have lower : l2Index v = l2Index heapBase := by
    simp only [heapBase, heapMaxSize] at *
    rw [l2Index_eq, l2Index_eq]
    omega
  constructor
  · simp only [pagePaths, l3Path, upper, lower]
  · simp only [l3Path, upper, lower]

theorem window_missing (m : Machine) (v : Nat) (low : heapBase ≤ v)
    (high : v < heapBase + heapMaxSize) : (m.missingTables {v}).card = windowTables m := by
  rw [windowTables, missing_singleton, missing_singleton, (window_walk v low high).1]

/-- Once a page of the window is mapped, no table of the window is missing. -/
theorem windowTables_mapped (m : Machine) (v : Nat) (low : heapBase ≤ v)
    (high : v < heapBase + heapMaxSize) (mapped : m.leaf v ≠ 0) : windowTables m = 0 := by
  have lower : m.tableAt (l3Path v) ≠ none := by
    intro absent
    have here : TableTree.tableAt decodeLink m.mem m.l1Table (l3Path v) = none := absent
    exact mapped (by simp [Machine.leaf, Machine.word, entry, here])
  have upper : m.tableAt [l1Index v] ≠ none := by
    intro absent
    have here : TableTree.tableAt decodeLink m.mem m.l1Table [l1Index v] = none := absent
    exact lower (by rw [Machine.tableAt, l3Path, TableTree.tableAt, here]; rfl)
  rw [← window_missing m v low high, missing_singleton, Finset.card_eq_zero,
    Finset.filter_eq_empty_iff]
  intro path member
  simp only [pagePaths, Finset.mem_insert, Finset.mem_singleton] at member
  rcases member with rfl | rfl
  · exact upper
  · exact lower

def heapRequest (va frame : Nat) : MapRequest where
  va := va
  phys := frame
  size := pageSize
  flags := pteNormalRw

theorem heapRequest_pages (va frame : Nat) : (heapRequest va frame).pages = {va} := by
  have one : pageSize / pageSize = 0 + 1 := by decide
  rw [MapRequest.pages, heapRequest, one, pagesFrom_succ]
  simp [pagesFrom]

theorem page_cases (v e : Nat) (page : v % pageSize = 0) (pageE : e % pageSize = 0)
    (high : v < e + pageSize) : v < e ∨ v = e := by
  simp only [pageSize] at *
  omega

/-- One more page, on a frame that was free, under every earlier page kept. -/
theorem Backed.extend {m m' : Machine} {e k : Nat} (backed : Backed m e) (page : e % pageSize = 0)
    (below : k < m.pmm.totalFrames) (unused : m.pmm.used k = false)
    (total : m'.pmm.totalFrames = m.pmm.totalFrames) (frames : ∀ j, m'.pmm.frame j = m.pmm.frame j)
    (used : ∀ j, j < m.pmm.totalFrames → (j = k ∨ m.pmm.used j = true) → m'.pmm.used j = true)
    (data : ∀ j, (j = k ∨ m.pmm.used j = true) →
      (∀ path, TablePath path → m.tableAt path ≠ some (m.pmm.frame j)) →
      ∀ path, TablePath path → m'.tableAt path ≠ some (m'.pmm.frame j))
    (noTable : ∀ path, TablePath path → m.tableAt path ≠ some (m.pmm.frame k))
    (newPage : translate m' e = m.pmm.frame k) (oldPage : ∀ v, v < e → translate m' v = translate m v) :
    Backed m' (e + pageSize) := by
  have different : ∀ j, m.pmm.used j = true → m.pmm.frame j ≠ m.pmm.frame k := by
    intro j taken same
    rw [frame_injective] at same
    rw [same, unused] at taken
    exact Bool.false_ne_true taken
  intro v low high pageV
  rcases page_cases v e pageV page high with earlier | newest
  · obtain ⟨j, range, address, taken, apart, alone⟩ := backed v low earlier pageV
    refine ⟨j, by rw [total]; exact range, by rw [frames, oldPage v earlier, address],
      used j range (Or.inr taken), data j (Or.inr taken) apart, ?_⟩
    intro u lowU highU pageU same
    rcases page_cases u e pageU page highU with earlierU | newestU
    · rw [oldPage u earlierU, oldPage v earlier] at same
      exact alone u lowU earlierU pageU same
    · rw [newestU, newPage, oldPage v earlier, address] at same
      exact absurd same.symm (different j taken)
  · rw [newest]
    refine ⟨k, by rw [total]; exact below, by rw [frames]; exact newPage,
      used k below (Or.inl rfl), data k (Or.inl rfl) noTable, ?_⟩
    intro u lowU highU pageU same
    rcases page_cases u e pageU page highU with earlierU | newestU
    · obtain ⟨j, _, address, taken, _, _⟩ := backed u lowU earlierU pageU
      rw [newPage, oldPage u earlierU, address] at same
      exact absurd same (different j taken)
    · exact newestU

/-- A heap page that finds frames for its tables as well is mapped for good. -/
theorem map_backed (m : Machine) (wf : WellFormed m) (e k : Nat) (backed : Backed m e)
    (base : heapBase ≤ e) (window : e < heapBase + heapMaxSize) (page : e % pageSize = 0)
    (below : k < m.pmm.totalFrames) (unused : m.pmm.used k = false)
    (affordable : windowTables m ≤ (m.pmm.markUsed k).freeFrames.card) :
    let m' := map { m with pmm := m.pmm.markUsed k } e (m.pmm.frame k) pageSize pteNormalRw
    WellFormed m' ∧ Backed m' (e + pageSize) ∧ windowTables m' = 0 := by
  intro m'
  obtain ⟨framePage, frameHigh, _⟩ := frame_address m.pmm wf.sound k below
  have tiled := wf.sound.tiled
  have aligned : (heapRequest e (m.pmm.frame k)).Aligned := by
    refine ⟨page, framePage, by simp [heapRequest], ?_, ?_,
      show pteNormalRw &&& addrMask = 0 by decide⟩
    · simp only [heapRequest, heapBase, heapMaxSize, pageSize] at *; omega
    · simp only [heapRequest, Pmm.frame, pageSize, physMemEnd] at *; omega
  have law := map_law { m with pmm := m.pmm.markUsed k } (wf.markUsed k)
    (heapRequest e (m.pmm.frame k)) aligned (by
      rw [MapRequest.Affordable, heapRequest_pages]
      exact (window_missing m e base window).trans_le affordable)
  change MapLaw _ m' _ at law
  have lowE : e < 2 ^ 39 := by simp only [heapBase, heapMaxSize] at window; omega
  have covered : (heapRequest e (m.pmm.frame k)).va ≤ e ∧
      e < (heapRequest e (m.pmm.frame k)).va + (heapRequest e (m.pmm.frame k)).size :=
    ⟨Nat.le_refl e, by simp only [heapRequest, pageSize]; omega⟩
  -- the page's own frame counts as used while its tables are made
  have marked : ∀ j, (j = k ∨ m.pmm.used j = true) → (m.pmm.markUsed k).used j = true := by
    rintro j (same | old)
    · simp [same]
    · simp [old]
  refine ⟨law.wellFormed, ?_, ?_⟩
  · apply backed.extend page below unused law.grown.total fun j => law.grown.frame_eq j
    · exact fun j range reason => (law.grown.used j range).mpr (Or.inl (marked j reason))
    · intro j reason apart path valid
      rw [show m'.pmm.frame j = m.pmm.frame j from law.grown.frame_eq j]
      exact law.grown.noTable (marked j reason) apart path valid
    · exact fun path valid => unused_not_table m wf k unused path valid
    · rw [law.addresses e lowE, MapRequest.overlay, if_pos covered]
      simp [MapRequest.address, heapRequest]
    · intro v earlier
      rw [law.addresses v (Nat.lt_trans earlier lowE), MapRequest.overlay, if_neg (by
        rintro ⟨low, _⟩
        exact Nat.not_le.mpr earlier low)]
      rfl
  · apply windowTables_mapped m' e base window
    rw [law.descriptors e lowE, MapRequest.overlay, if_pos covered]
    intro zero
    have bits : (heapRequest e (m.pmm.frame k)).descriptor
        (e - (heapRequest e (m.pmm.frame k)).va) &&& 0b11 = 0b11 := BitField.or_absorb _ 0b11
    rw [zero] at bits
    exact absurd bits (by decide)

theorem growPage_spec (m : Machine) (wf : WellFormed m) (e : Nat) :
    (m.pmm.freeFrames = ∅ ∧ Backing.growPage m e = none) ∨
    ∃ k, k < m.pmm.totalFrames ∧ m.pmm.used k = false ∧
      Backing.growPage m e =
        some (map { m with pmm := m.pmm.markUsed k } e (m.pmm.frame k) pageSize pteNormalRw) := by
  rcases allocFrame_spec m.pmm wf.sound with ⟨k, below, unused, _, alloc⟩ | ⟨full, alloc⟩
  · right
    refine ⟨k, below, unused, ?_⟩
    simp only [Backing.growPage, alloc, if_neg (frame_address m.pmm wf.sound k below).2.2]
  · left
    refine ⟨freeFrames_empty m.pmm full, ?_⟩
    simp only [Backing.growPage, alloc, ↓reduceIte]

/-- A one-page `map` that lacks frames for its tables takes the last ones. -/
theorem map_starved (m : Machine) (wf : WellFormed m) (e phys flags : Nat) (small : e < 2 ^ 64)
    (short : m.pmm.freeFrames.card < (m.missingTables {e}).card) :
    WellFormed (map m e phys pageSize flags) ∧
      (map m e phys pageSize flags).pmm.freeFrames = ∅ := by
  have barrier := sameTables_emit m .dsbIshst
  have trips : intTrips (pageSize / pageSize) = 1 := by decide
  have here : (e + 0 * pageSize) % 2 ^ 64 = e := by
    rw [Nat.zero_mul, Nat.add_zero]
    exact Nat.mod_eq_of_lt small
  rcases mapPage_spec (m.emit .dsbIshst) (barrier.wellFormed wf) e ((phys + 0 * pageSize) % 2 ^ 64)
    flags with ⟨tables, m1, _, added, _⟩ | ⟨m1, done, starved⟩
  · exfalso
    have paid := added.paid
    rw [← missing_singleton, missing_congr fun path _ => barrier.tableAt path] at paid
    have same : (m.emit .dsbIshst).pmm.freeFrames = m.pmm.freeFrames := rfl
    rw [same] at paid
    omega
  · have result : map m e phys pageSize flags = m1 := by
      simp only [map, trips, mapPages, here, done, Bool.false_eq_true, ↓reduceIte]
    rw [result]
    exact ⟨starved.wellFormed, starved.exhausted⟩

/-- With no frame left the heap takes no page. -/
theorem growPage_exhausted (m : Machine) (wf : WellFormed m) (empty : m.pmm.freeFrames = ∅) (e : Nat) :
    Backing.growPage m e = none := by
  rcases growPage_spec m wf e with ⟨_, none⟩ | ⟨k, below, unused, _⟩
  · exact none
  · have member := (mem_freeFrames m.pmm k).mpr ⟨below, unused⟩
    rw [empty] at member
    exact absurd member (Finset.notMem_empty k)

/-- The heap in the loop: every page is backed and the last one can be paid for, or
the frames ran out and pages are missing still. -/
structure Growing (requiredEnd : Nat) (h : Heap Machine) : Prop where
  base : heapBase ≤ h.heapEnd
  page : h.heapEnd % pageSize = 0
  wellFormed : WellFormed h.back
  supply : (Backed h.back h.heapEnd ∧ (h.heapEnd < requiredEnd → requiredEnd ≤ h.heapEnd + pageSize →
      h.back.pmm.freeFrames.card ≠ 0 → windowTables h.back < h.back.pmm.freeFrames.card)) ∨
    (h.back.pmm.freeFrames = ∅ ∧ h.heapEnd < requiredEnd)

theorem Growing.step {requiredEnd : Nat} {h : Heap Machine} (growing : Growing requiredEnd h)
    (limit : requiredEnd ≤ heapBase + heapMaxSize) (back : Machine) (short : h.heapEnd < requiredEnd)
    (grown : Backing.growPage h.back h.heapEnd = some back) :
    Growing requiredEnd { h with heapEnd := (h.heapEnd + pageSize) % 2 ^ 64, back := back } := by
  have wf := growing.wellFormed
  have base := growing.base
  have page := growing.page
  have inside : h.heapEnd < heapBase + heapMaxSize := Nat.lt_of_lt_of_le short limit
  have next : (h.heapEnd + pageSize) % 2 ^ 64 = h.heapEnd + pageSize := by
    simp only [heapBase, heapMaxSize, pageSize] at *
    omega
  have nextPage : (h.heapEnd + pageSize) % pageSize = 0 := by
    rw [Nat.add_mod_right]; exact page
  have nextBase : heapBase ≤ h.heapEnd + pageSize := base.trans (Nat.le_add_right _ _)
  rw [next]
  rcases growing.supply with ⟨backed, funded⟩ | ⟨empty, _⟩
  · rcases growPage_spec h.back wf h.heapEnd with ⟨_, none⟩ | ⟨k, below, unused, taken⟩
    · rw [none] at grown
      contradiction
    · rw [taken, Option.some.injEq] at grown
      have cost := freeFrames_card h.back.pmm k below unused
      -- a frame for the page may leave none for its tables
      by_cases affordable : windowTables h.back ≤ (h.back.pmm.markUsed k).freeFrames.card
      · have mapped := map_backed h.back wf h.heapEnd k backed base inside page below unused affordable
        simp only [grown] at mapped
        obtain ⟨wf', backed', tables⟩ := mapped
        refine ⟨nextBase, nextPage, wf', Or.inl ⟨backed', ?_⟩⟩
        intro _ _ some
        dsimp only at some ⊢
        rw [tables]
        exact Nat.pos_of_ne_zero some
      · -- the page goes unmapped and takes the last frames
        have more : h.heapEnd + pageSize < requiredEnd := by
          by_contra last
          have room := funded short (Nat.not_lt.mp last) (by omega)
          omega
        have missing : windowTables h.back =
            (Machine.missingTables { h.back with pmm := h.back.pmm.markUsed k } {h.heapEnd}).card :=
          (window_missing h.back h.heapEnd base inside).symm
        have starved := map_starved { h.back with pmm := h.back.pmm.markUsed k }
          (wf.markUsed k) h.heapEnd (h.back.pmm.frame k) pteNormalRw
          (by simp only [heapBase, heapMaxSize] at inside; omega)
          (by rw [← missing]; exact Nat.not_le.mp affordable)
        simp only [grown] at starved
        exact ⟨nextBase, nextPage, starved.1, Or.inr ⟨starved.2, more⟩⟩
  · rw [growPage_exhausted h.back wf empty] at grown
    contradiction

theorem lazyMap_backed (requiredEnd trips : Nat) (h h' : Heap Machine) (wf : WellFormed h.back)
    (backed : Backed h.back h.heapEnd) (base : heapBase ≤ h.heapEnd) (page : h.heapEnd % pageSize = 0)
    (limit : requiredEnd ≤ heapBase + heapMaxSize)
    (funded : h.heapEnd < requiredEnd → requiredEnd ≤ h.heapEnd + pageSize →
      h.back.pmm.freeFrames.card ≠ 0 → windowTables h.back < h.back.pmm.freeFrames.card)
    (done : lazyMap requiredEnd trips h = .ok h') : WellFormed h'.back ∧ Backed h'.back h'.heapEnd := by
  obtain ⟨growing, covered⟩ := lazyMap_invariant requiredEnd (Growing requiredEnd)
    (fun k back growing short grown => growing.step limit back short grown)
    trips h h' ⟨base, page, wf, Or.inl ⟨backed, funded⟩⟩ done
  rcases growing.supply with ⟨backed', _⟩ | ⟨_, missing⟩
  · exact ⟨growing.wellFormed, backed'⟩
  · exact absurd missing (Nat.not_lt.mpr covered)

/-- The heap between two calls. -/
structure HeapOk (h : Heap Machine) : Prop where
  shape : HeapShape h
  wellFormed : WellFormed h.back
  backed : Backed h.back h.heapEnd

theorem kheapInit_ok (m : Machine) (wf : WellFormed m) : HeapOk (kheapInit m) where
  shape := kheapInit_shape m
  wellFormed := wf
  backed := fun _ low high _ => absurd high (Nat.not_lt.mpr low)

theorem kmalloc_backed (h h' : Heap Machine) (size addr : Nat) (ok : HeapOk h)
    (small : size ≤ heapMaxSize) (funded : Funded h size) (done : kmalloc h size = .ok (addr, h')) :
    HeapOk h' := by
  obtain ⟨_, _, shape⟩ := kmalloc_ok h h' size addr ok.shape small done
  rw [kmalloc_eq h size (noWrap_small h size ok.shape small)] at done
  by_cases past : h.requiredEnd size > heapBase + heapMaxSize
  · simp [past] at done
  · rw [if_neg past] at done
    obtain ⟨middle, mapped, rest⟩ := (bind_ok_iff _ _ _).mp done
    have limit := Nat.not_lt.mp past
    obtain ⟨wf, backed⟩ := lazyMap_backed _ _ h middle ok.wellFormed ok.backed
      (ok.shape.base.trans ok.shape.mapped) ok.shape.page limit
      (fun short last => funded short last limit) mapped
    simp only [pure_ok, Except.ok.injEq, Prod.mk.injEq] at rest
    obtain ⟨rfl, rfl⟩ := rest
    exact ⟨shape, wf, backed⟩

def kmallocs (h : Heap Machine) (sizes : List Nat) : Run (List Nat × Heap Machine) :=
  Replay.attempt (fun h size => kmalloc h size) h sizes

def FundedRun : Heap Machine → List Nat → Prop
  | _, [] => True
  | h, size :: rest => Funded h size ∧ ∀ addr h', kmalloc h size = .ok (addr, h') → FundedRun h' rest

theorem FundedRun.along {h : Heap Machine} {sizes : List Nat} (funded : FundedRun h sizes) :
    Replay.Along (fun h size => kmalloc h size) Funded h sizes := by
  induction sizes generalizing h with
  | nil => trivial
  | cons size rest ih => exact ⟨funded.1, fun addr h' done => ih (funded.2 addr h' done)⟩

theorem kmallocs_backed (h : Heap Machine) (sizes : List Nat) (ok : HeapOk h)
    (small : ∀ size ∈ sizes, size ≤ heapMaxSize) (funded : FundedRun h sizes) (addrs : List Nat)
    (last : Heap Machine) (done : kmallocs h sizes = .ok (addrs, last)) : HeapOk last := by
  have fits := Replay.along_of_forall (fun (h : Heap Machine) size => kmalloc h size)
    (fun size => size ≤ heapMaxSize) sizes h small
  exact (fits.and sizes h funded.along).invariant HeapOk
    (fun h size addr h' ok allowed first => kmalloc_backed h h' size addr ok allowed.1 allowed.2 first)
    sizes h addrs last ok done

/-- Every heap byte handed out is backed, in runs whose calls are funded. -/
theorem heap_pages_backed (m : Machine) (wf : WellFormed m) (sizes : List Nat)
    (small : ∀ size ∈ sizes, size ≤ heapMaxSize) (funded : FundedRun (kheapInit m) sizes)
    (addrs : List Nat) (h : Heap Machine) (done : kmallocs (kheapInit m) sizes = .ok (addrs, h)) :
    h.bumpPtr % 16 = 0 ∧ h.heapEnd % pageSize = 0 ∧ h.bumpPtr ≤ h.heapEnd ∧
      Backed h.back h.heapEnd := by
  have ok := kmallocs_backed (kheapInit m) sizes (kheapInit_ok m wf) small funded addrs h done
  exact ⟨ok.shape.aligned, ok.shape.page, ok.shape.mapped, ok.backed⟩

/-- Four free frames pay for a heap page and its two tables. -/
theorem heap_pages_backed_four_frames :
    ∃ addrs h, kmallocs (kheapInit (bootMachine 0x3F7FA000)) [48] = .ok (addrs, h) ∧
      h.bumpPtr % 16 = 0 ∧ h.heapEnd % pageSize = 0 ∧ h.bumpPtr ≤ h.heapEnd ∧
      Backed h.back h.heapEnd := by
  have wf := (bootMachine_wellFormed 0x3F7FA000 (by decide) (by decide +kernel)).1
  have small : ∀ size ∈ [48], size ≤ heapMaxSize := by decide
  have funded : FundedRun (kheapInit (bootMachine 0x3F7FA000)) [48] := by
    refine ⟨fun _ _ _ _ => ?_, fun _ _ _ => trivial⟩
    decide +kernel
  cases result : kmallocs (kheapInit (bootMachine 0x3F7FA000)) [48] with
  | ok last =>
      exact ⟨last.1, last.2, rfl,
        heap_pages_backed (bootMachine 0x3F7FA000) wf [48] small funded last.1 last.2 result⟩
  | error stop =>
      have returns : (kmallocs (kheapInit (bootMachine 0x3F7FA000)) [48]).toBool = true := by
        decide +kernel
      rw [result] at returns
      exact absurd returns Bool.false_ne_true

/-- One frame is left for the heap: the page is handed out and not mapped. -/
theorem kmalloc_hands_out_unmapped_page :
    ¬ ∀ (m : Machine) (_ : WellFormed m)
      (_ : ∀ v, heapBase ≤ v → v < heapBase + heapMaxSize → translate m v = 2 ^ 64 - 1)
      (sizes : List Nat) (_ : ∀ size ∈ sizes, size ≤ heapMaxSize) (addrs : List Nat)
      (h : Heap Machine) (_ : kmallocs (kheapInit m) sizes = .ok (addrs, h)),
      h.bumpPtr % 16 = 0 ∧ h.heapEnd % pageSize = 0 ∧ h.bumpPtr ≤ h.heapEnd ∧
        Backed h.back h.heapEnd := by
  intro claimed
  obtain ⟨wf, unmapped⟩ := bootMachine_wellFormed 0x3F7FD000 (by decide) (by decide +kernel)
  have small : ∀ size ∈ [16], size ≤ heapMaxSize := by decide
  have seen : (kmallocs (kheapInit (bootMachine 0x3F7FD000)) [16]).toOption.map
      (fun last => (decide (heapBase < last.2.heapEnd), translate last.2.back heapBase,
        last.2.back.pmm.physMemStart, last.2.back.pmm.totalFrames)) =
      some (true, 2 ^ 64 - 1, 0x3F7FE000, 2) := by decide +kernel
  cases result : kmallocs (kheapInit (bootMachine 0x3F7FD000)) [16] with
  | error stop =>
      simp [result, Except.toOption] at seen
  | ok last =>
      obtain ⟨_, _, _, backed⟩ := claimed _ wf (fun v _ _ => unmapped v) [16] small last.1 last.2 result
      simp only [result, Except.toOption, Option.map_some, Option.some.injEq, Prod.mk.injEq,
        decide_eq_true_eq] at seen
      obtain ⟨mapped, absent, start, total⟩ := seen
      obtain ⟨k, below, address, _⟩ := backed heapBase (Nat.le_refl _) mapped (by decide)
      rw [absent, Pmm.frame, start] at address
      rw [total] at below
      simp only [pageSize] at address
      omega

end KehindeKernel
