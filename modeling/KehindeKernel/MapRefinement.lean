import Mathlib.Data.Finset.Union
import KehindeKernel.PageTable

/-!
`map` refines a range update of a partial function from virtual to physical
addresses. The frame budget counts the tables a range still misses; one page
pays for the tables it links, and the leaves outside the page stay as they were.
-/

namespace KehindeKernel

open TableTree

def Pmm.freeFrames (p : Pmm) : Finset Nat :=
  (Finset.range p.totalFrames).filter fun k => p.used k = false

/-- The tables a walk to `va` goes through below the top one. -/
def pagePaths (va : Nat) : Finset (List Nat) := {[l1Index va], l3Path va}

/-- Tables that walks to the addresses in `pages` need and that are not there. -/
def Machine.missingTables (m : Machine) (pages : Finset Nat) : Finset (List Nat) :=
  (pages.biUnion pagePaths).filter fun path => m.tableAt path = none

theorem pagePaths_valid (va : Nat) (path : List Nat) (member : path ∈ pagePaths va) :
    TablePath path := by
  simp only [pagePaths, Finset.mem_insert, Finset.mem_singleton] at member
  rcases member with rfl | rfl
  · exact l1Path_valid va
  · exact l3Path_valid va

theorem mem_freeFrames (p : Pmm) (k : Nat) :
    k ∈ p.freeFrames ↔ k < p.totalFrames ∧ p.used k = false := by
  simp [Pmm.freeFrames]

theorem freeFrames_markUsed (p : Pmm) (k : Nat) :
    (p.markUsed k).freeFrames = p.freeFrames.erase k := by
  ext j
  simp only [mem_freeFrames, Finset.mem_erase, Pmm.markUsed_totalFrames, Pmm.used_markUsed,
    Bool.or_eq_false_iff, decide_eq_false_iff_not]
  constructor
  · rintro ⟨below, different, unused⟩; exact ⟨different, below, unused⟩
  · rintro ⟨different, below, unused⟩; exact ⟨below, different, unused⟩

theorem freeFrames_card (p : Pmm) (k : Nat) (below : k < p.totalFrames) (unused : p.used k = false) :
    (p.markUsed k).freeFrames.card + 1 = p.freeFrames.card := by
  rw [freeFrames_markUsed]
  exact Finset.card_erase_add_one ((mem_freeFrames p k).mpr ⟨below, unused⟩)

theorem freeFrames_empty (p : Pmm) (full : ∀ k, k < p.totalFrames → p.used k = true) :
    p.freeFrames = ∅ := by
  apply Finset.eq_empty_of_forall_notMem
  intro k member
  obtain ⟨below, unused⟩ := (mem_freeFrames p k).mp member
  rw [full k below] at unused
  contradiction

/-- Progress of table creation: `m'` grew out of `m`, kept the leaves, has new
tables only at `paths`, and paid one frame for each path that was missing. -/
structure TablesAdded (m m' : Machine) (paths : Finset (List Nat)) : Prop where
  wellFormed : WellFormed m'
  grown : Grown m m'
  leaves : ∀ va, m'.leaf va = m.leaf va
  elsewhere : ∀ path, TablePath path → path ∉ paths → m'.tableAt path = m.tableAt path
  present : ∀ path ∈ paths, m'.tableAt path ≠ none
  paid : m'.pmm.freeFrames.card + (paths.filter fun path => m.tableAt path = none).card =
    m.pmm.freeFrames.card

/-- Table creation stopped half-way: what was built is sound and free frames ran out. -/
structure TablesStarved (m m' : Machine) (paths : Finset (List Nat)) : Prop where
  wellFormed : WellFormed m'
  grown : Grown m m'
  leaves : ∀ va, m'.leaf va = m.leaf va
  elsewhere : ∀ path, TablePath path → path ∉ paths → m'.tableAt path = m.tableAt path
  short : m.pmm.freeFrames.card < (paths.filter fun path => m.tableAt path = none).card
  exhausted : m'.pmm.freeFrames = ∅

theorem getOrAllocTable_step (m : Machine) (wf : WellFormed m) (path : List Nat) (table i : Nat)
    (valid : TablePath (i :: path)) (found : m.tableAt path = some table) :
    (∃ child m', getOrAllocTable m table i = (child, m') ∧ child ≠ 0 ∧
      m'.tableAt (i :: path) = some child ∧ TablesAdded m m' {i :: path}) ∨
    (getOrAllocTable m table i = (0, m) ∧ TablesStarved m m {i :: path}) := by
  rcases getOrAllocTable_spec m wf path table i valid found with
    ⟨child, present, nonzero, done⟩ | ⟨k, m', absent, below, unused, nonzero, linked, done⟩ |
    ⟨absent, full, done⟩
  · left
    refine ⟨child, m, done, nonzero, present, wf, Grown.refl m, fun _ => rfl, fun _ _ _ => rfl, ?_, ?_⟩
    · intro other member
      rw [Finset.mem_singleton.mp member, present]
      simp
    · simp [Finset.filter_singleton, present]
  · left
    have here : m'.tableAt (i :: path) = some (m.pmm.frame k) := by
      rw [linked.tables _ valid, if_pos rfl]
    refine ⟨m.pmm.frame k, m', done, nonzero, here, linked.wellFormed, linked.grown valid absent below unused,
      linked.leaves, ?_, ?_, ?_⟩
    · intro other validOther outside
      rw [linked.tables other validOther, if_neg (fun same => outside (Finset.mem_singleton.mpr same))]
    · intro other member
      rw [Finset.mem_singleton.mp member, here]
      simp
    · rw [linked.pmm]
      simp [Finset.filter_singleton, absent, freeFrames_card m.pmm k below unused]
  · right
    refine ⟨done, wf, Grown.refl m, fun _ => rfl, fun _ _ _ => rfl, ?_, freeFrames_empty m.pmm full⟩
    rw [freeFrames_empty m.pmm full]
    simp [Finset.filter_singleton, absent]

/-- The missing tables on the walk of a page, one path at a time. -/
theorem pagePaths_missing (m : Machine) (va : Nat) : ((pagePaths va).filter fun path => m.tableAt path = none).card =
    (if m.tableAt [l1Index va] = none then 1 else 0) + if m.tableAt (l3Path va) = none then 1 else 0 := by
  have apart : [l1Index va] ≠ l3Path va := by simp [l3Path]
  rw [pagePaths, Finset.filter_insert, Finset.filter_singleton]
  by_cases upper : m.tableAt [l1Index va] = none
  · by_cases lower : m.tableAt (l3Path va) = none
    · rw [if_pos upper, if_pos lower, if_pos upper, if_pos lower, Finset.card_pair apart]
    · rw [if_pos upper, if_neg lower, if_pos upper, if_neg lower]
      rfl
  · by_cases lower : m.tableAt (l3Path va) = none
    · rw [if_neg upper, if_pos lower, if_neg upper, if_pos lower]
      rfl
    · rw [if_neg upper, if_neg lower, if_neg upper, if_neg lower]
      rfl

theorem path_missing (m : Machine) (path : List Nat) :
    (({path} : Finset (List Nat)).filter fun p => m.tableAt p = none).card =
      if m.tableAt path = none then 1 else 0 := by
  rw [Finset.filter_singleton]
  split <;> rfl

/-- `map` on one page, in every PMM state: the leaf is written, or a table could
not be had and nothing but unused tables was added. -/
theorem mapPage_spec (m : Machine) (wf : WellFormed m) (va phys flags : Nat) :
    (∃ tables m', mapPage m va phys flags = (m', true) ∧ TablesAdded m tables (pagePaths va) ∧
      LeafWritten tables m' va (phys ||| flags ||| 0b11)) ∨
    (∃ m', mapPage m va phys flags = (m', false) ∧ TablesStarved m m' (pagePaths va)) := by
  have apart : [l1Index va] ≠ l3Path va := by simp [l3Path]
  have top : m.tableAt [] = some m.l1Table := rfl
  -- the walk makes up to two tables, and either can find no frame
  rcases getOrAllocTable_step m wf [] m.l1Table (l1Index va) (l1Path_valid va) top with
    ⟨l2, m2, first, l2Nonzero, l2Here, added2⟩ | ⟨first, starved⟩
  · rcases getOrAllocTable_step m2 added2.wellFormed [l1Index va] l2 (l2Index va)
      (l3Path_valid va) l2Here with
      ⟨l3, m3, second, l3Nonzero, l3Here, added3⟩ | ⟨second, starved⟩
    · left
      have shape : phys ||| flags ||| 0b11 = 0 ∨ (phys ||| flags ||| 0b11) &&& 0b11 = 0b11 :=
        Or.inr (BitField.or_absorb _ 0b11)
      have written := store_leaf m3 added3.wellFormed va l3 _
        (.leafStore (va >>> 12) (phys ||| flags ||| 0b11)) l3Here shape
      refine ⟨m3, _, ?_, ⟨added3.wellFormed, added2.grown.trans added3.grown, ?_, ?_, ?_, ?_⟩, written⟩
      · simp only [mapPage, first, if_neg l2Nonzero, second, if_neg l3Nonzero]
      · intro u; rw [added3.leaves, added2.leaves]
      · intro path valid outside
        simp only [pagePaths, Finset.mem_insert, Finset.mem_singleton, not_or] at outside
        rw [added3.elsewhere path valid (by simpa [l3Path] using outside.2),
          added2.elsewhere path valid (by simpa using outside.1)]
      · intro path member
        simp only [pagePaths, Finset.mem_insert, Finset.mem_singleton] at member
        rcases member with rfl | rfl
        · rw [added3.grown.kept _ l2 (l1Path_valid va) l2Here]; simp
        · exact fun none => by rw [l3Path, l3Here] at none; contradiction
      · -- the two payments add up to the missing tables of the walk
        have middle : m2.tableAt (l3Path va) = m.tableAt (l3Path va) :=
          added2.elsewhere _ (l3Path_valid va) (by simp [l3Path])
        have paid2 := added2.paid
        have paid3 := added3.paid
        rw [← l3Path, path_missing, middle] at paid3
        rw [path_missing] at paid2
        rw [pagePaths_missing]
        omega
    · right
      refine ⟨m2, ?_, added2.wellFormed, added2.grown, added2.leaves, ?_, ?_, starved.exhausted⟩
      · simp only [mapPage, first, if_neg l2Nonzero, second, ↓reduceIte]
      · intro path valid outside
        simp only [pagePaths, Finset.mem_insert, Finset.mem_singleton, not_or] at outside
        exact added2.elsewhere path valid (by simpa using outside.1)
      · have middle : m2.tableAt (l3Path va) = m.tableAt (l3Path va) :=
          added2.elsewhere _ (l3Path_valid va) (by simp [l3Path])
        have paid2 := added2.paid
        have short := starved.short
        rw [← l3Path, path_missing, middle] at short
        rw [path_missing] at paid2
        rw [pagePaths_missing]
        omega
  · right
    refine ⟨m, ?_, wf, Grown.refl m, fun _ => rfl, fun _ _ _ => rfl, ?_, starved.exhausted⟩
    · simp only [mapPage, first, ↓reduceIte]
    · apply Nat.lt_of_lt_of_le starved.short
      apply Finset.card_le_card
      apply Finset.filter_subset_filter
      simp [pagePaths]

/-- The pages `i, i+1, .., i+trips-1` of a range that starts at `va`. -/
def pagesFrom (va i trips : Nat) : Finset Nat :=
  (Finset.Ico i (i + trips)).image fun j => va + j * pageSize

theorem pagesFrom_succ (va i trips : Nat) :
    pagesFrom va i (trips + 1) = insert (va + i * pageSize) (pagesFrom va (i + 1) trips) := by
  have split : Finset.Ico i (i + (trips + 1)) = insert i (Finset.Ico (i + 1) (i + 1 + trips)) := by
    ext j
    simp only [Finset.mem_Ico, Finset.mem_insert]
    omega
  rw [pagesFrom, split, Finset.image_insert, pagesFrom]

theorem missing_singleton (m : Machine) (va : Nat) :
    m.missingTables {va} = (pagePaths va).filter fun path => m.tableAt path = none := by
  rw [Machine.missingTables, Finset.singleton_biUnion]

theorem missing_insert (m : Machine) (va : Nat) (pages : Finset Nat) :
    m.missingTables {va} ⊆ m.missingTables (insert va pages) := by
  apply Finset.filter_subset_filter
  exact Finset.biUnion_subset_biUnion_of_subset_left _ (by simp)

/-- A page that the budget covers finds its tables. -/
theorem budget_covers (m m' : Machine) (va : Nat) (pages : Finset Nat)
    (budget : (m.missingTables (insert va pages)).card ≤ m.pmm.freeFrames.card) :
    ¬ TablesStarved m m' (pagePaths va) := by
  intro starved
  have short := starved.short
  rw [← missing_singleton] at short
  have bound := Finset.card_le_card (missing_insert m va pages)
  omega

/-- What one page paid for, the rest of the range no longer needs; frames to
spare stay to spare. -/
theorem missing_after_page (m m' : Machine) (va : Nat) (pages : Finset Nat) (spare : Nat)
    (added : TablesAdded m m' (pagePaths va))
    (budget : (m.missingTables (insert va pages)).card + spare ≤ m.pmm.freeFrames.card) :
    (m'.missingTables pages).card + spare ≤ m'.pmm.freeFrames.card := by
  have paid := added.paid
  rw [← missing_singleton] at paid
  have here := missing_insert m va pages
  have rest : m'.missingTables pages ⊆ m.missingTables (insert va pages) \ m.missingTables {va} := by
    intro path member
    obtain ⟨needed, absent⟩ := Finset.mem_filter.mp member
    obtain ⟨page, inPages, onWalk⟩ := Finset.mem_biUnion.mp needed
    have valid := pagePaths_valid page path onWalk
    have outside : path ∉ pagePaths va := fun inside => added.present path inside absent
    rw [added.elsewhere path valid outside] at absent
    rw [Finset.mem_sdiff, missing_singleton]
    refine ⟨Finset.mem_filter.mpr ⟨?_, absent⟩, fun both => outside (Finset.mem_filter.mp both).1⟩
    exact Finset.mem_biUnion.mpr ⟨page, Finset.mem_insert_of_mem inPages, onWalk⟩
  have part := Finset.card_le_card here
  have bound := Finset.card_le_card rest
  rw [Finset.card_sdiff_of_subset here] at bound
  omega

theorem freeFrames_congr {m m' : Machine} (same : m'.pmm = m.pmm) :
    m'.pmm.freeFrames = m.pmm.freeFrames := by rw [same]

theorem missing_congr {m m' : Machine}
    (tables : ∀ path, TablePath path → m'.tableAt path = m.tableAt path) (pages : Finset Nat) :
    m'.missingTables pages = m.missingTables pages := by
  apply Finset.filter_congr
  intro path member
  obtain ⟨page, _, onWalk⟩ := Finset.mem_biUnion.mp member
  rw [tables path (pagePaths_valid page path onWalk)]

theorem leafWritten_grown {m m' : Machine} {va word : Nat} (written : LeafWritten m m' va word) :
    Grown m m' where
  top := written.top
  start := by rw [written.pmm]
  total := by rw [written.pmm]
  kept := fun path table valid found => by rw [written.tables path valid]; exact found
  used := fun k _ => by
    rw [written.pmm]
    constructor
    · exact Or.inl
    · rintro (old | ⟨path, valid, absent, present⟩)
      · exact old
      · rw [written.tables path valid, absent] at present; contradiction
  fresh := fun path table valid absent present => by
    rw [written.tables path valid, absent] at present
    contradiction

/-- The descriptor `map` writes for page `j` of its range. -/
def pageWord (phys flags j : Nat) : Nat := (phys + j * pageSize) ||| flags ||| 0b11

/-- With a frame for every missing table the loop of `map` runs to its end and
changes the leaves of its own pages only. -/
theorem mapPages_spec (va phys flags trips i : Nat) (m : Machine) (wf : WellFormed m)
    (low : va + (i + trips) * pageSize ≤ 2 ^ 39) (aligned : va % pageSize = 0)
    (physical : phys + (i + trips) * pageSize ≤ 2 ^ 48)
    (budget : (m.missingTables (pagesFrom va i trips)).card ≤ m.pmm.freeFrames.card) :
    ∃ m', mapPages va phys flags trips i m = (m', true) ∧ WellFormed m' ∧ Grown m m' ∧
      (∀ u j, u < 2 ^ 39 → i ≤ j → j < i + trips → u / pageSize = va / pageSize + j →
        m'.leaf u = pageWord phys flags j) ∧
      (∀ u, u < 2 ^ 39 → (∀ j, i ≤ j → j < i + trips → u / pageSize ≠ va / pageSize + j) →
        m'.leaf u = m.leaf u) := by
  induction trips generalizing i m with
  | zero =>
      refine ⟨m, rfl, wf, Grown.refl m, ?_, fun _ _ _ => rfl⟩
      intro u j _ lower upper _
      omega
  | succ trips ih =>
      have lowLater : va + (i + 1 + trips) * pageSize ≤ 2 ^ 39 := by
        rw [Nat.add_right_comm i 1 trips, Nat.add_assoc i trips 1]; exact low
      have physicalLater : phys + (i + 1 + trips) * pageSize ≤ 2 ^ 48 := by
        rw [Nat.add_right_comm i 1 trips, Nat.add_assoc i trips 1]; exact physical
      simp only [pageSize] at low physical aligned
      have vaHere : (va + i * pageSize) % 2 ^ 64 = va + i * pageSize := by
        apply Nat.mod_eq_of_lt; simp only [pageSize]; omega
      have physHere : (phys + i * pageSize) % 2 ^ 64 = phys + i * pageSize := by
        apply Nat.mod_eq_of_lt; simp only [pageSize]; omega
      have walk : ∀ u, u < 2 ^ 39 → ((l3Index u = l3Index (va + i * pageSize) ∧
          l3Path u = l3Path (va + i * pageSize)) ↔ u / pageSize = va / pageSize + i) := by
        intro u lowU
        rw [same_walk u (va + i * pageSize) lowU (by simp only [pageSize]; omega)]
        simp only [pageSize]
        omega
      rw [pagesFrom_succ] at budget
      rcases mapPage_spec m wf (va + i * pageSize) (phys + i * pageSize) flags with
        ⟨tables, m1, done, added, written⟩ | ⟨m1, _, starved⟩
      · have later := missing_after_page m tables _ _ 0 added budget
        rw [← missing_congr written.tables, ← freeFrames_congr written.pmm] at later
        obtain ⟨m', rest, wf', grown, inside, outside⟩ :=
          ih (i + 1) m1 written.wellFormed lowLater physicalLater later
        have leaves : ∀ u, m1.leaf u = if l3Index u = l3Index (va + i * pageSize) ∧
            l3Path u = l3Path (va + i * pageSize) then pageWord phys flags i else m.leaf u := by
          intro u
          rw [written.leaves u, added.leaves u]
          rfl
        refine ⟨m', ?_, wf', (added.grown.trans (leafWritten_grown written)).trans grown, ?_, ?_⟩
        · rw [mapPages, vaHere, physHere, done]
          exact rest
        · intro u j lowU lower upper page
          by_cases first : j = i
          · subst first
            -- written by this trip, and the later trips have other pages
            rw [outside u lowU (by intro j' _ _; omega), leaves u, if_pos ((walk u lowU).mpr page)]
          · exact inside u j lowU (by omega) (by omega) page
        · intro u lowU apart
          rw [outside u lowU (fun j lower upper => apart j (by omega) (by omega)), leaves u,
            if_neg (fun same => apart i (by omega) (by omega) ((walk u lowU).mp same))]
      · exact absurd starved (budget_covers m m1 _ _ budget)

/-- `map` with any arguments only grows the tree. -/
theorem mapPages_grown (va phys flags trips i : Nat) (m : Machine) (wf : WellFormed m) :
    WellFormed (mapPages va phys flags trips i m).1 ∧
      Grown m (mapPages va phys flags trips i m).1 := by
  induction trips generalizing i m with
  | zero => exact ⟨wf, Grown.refl m⟩
  | succ trips ih =>
      rw [mapPages]
      rcases mapPage_spec m wf ((va + i * pageSize) % 2 ^ 64) ((phys + i * pageSize) % 2 ^ 64) flags
        with ⟨tables, m1, done, added, written⟩ | ⟨m1, done, starved⟩
      · obtain ⟨wf', grown⟩ := ih (i + 1) m1 written.wellFormed
        simp only [done, ↓reduceIte]
        exact ⟨wf', (added.grown.trans (leafWritten_grown written)).trans grown⟩
      · simp only [done, Bool.false_eq_true, ↓reduceIte]
        exact ⟨starved.wellFormed, starved.grown⟩

/-- The barriers and invalidations of `map` leave what its loop built. -/
theorem map_edits (m : Machine) (va phys size flags : Nat) :
    SameTables (mapPages va phys flags (intTrips (size / pageSize)) 0 (m.emit .dsbIshst)).1
      (map m va phys size flags) := by
  simp only [map]
  split
  · exact ((sameTables_invalidate va _ 0 _).trans (sameTables_emit _ .dsbIsh)).trans
      (sameTables_emit _ .isb)
  · exact ⟨rfl, rfl, rfl⟩

theorem map_grown (m : Machine) (wf : WellFormed m) (va phys size flags : Nat) :
    WellFormed (map m va phys size flags) ∧ Grown m (map m va phys size flags) := by
  have barrier := sameTables_emit m .dsbIshst
  have edits := map_edits m va phys size flags
  obtain ⟨wf1, grown⟩ := mapPages_grown va phys flags (intTrips (size / pageSize)) 0
    (m.emit .dsbIshst) (barrier.wellFormed wf)
  exact ⟨edits.wellFormed wf1, (barrier.grown.trans grown).trans edits.grown⟩

structure MapRequest where
  va : Nat
  phys : Nat
  size : Nat
  flags : Nat

def MapRequest.apply (m : Machine) (r : MapRequest) : Machine := map m r.va r.phys r.size r.flags

/-- What the callers of `map` promise. -/
structure MapRequest.Aligned (r : MapRequest) : Prop where
  va : r.va % pageSize = 0
  phys : r.phys % pageSize = 0
  size : r.size % pageSize = 0
  virtualEnd : r.va + r.size ≤ 2 ^ 39
  physicalEnd : r.phys + r.size ≤ 2 ^ 48
  flags : r.flags &&& addrMask = 0

def MapRequest.pages (r : MapRequest) : Finset Nat := pagesFrom r.va 0 (r.size / pageSize)

/-- A frame is free for each table the range misses. -/
def MapRequest.Affordable (m : Machine) (r : MapRequest) : Prop :=
  (m.missingTables r.pages).card ≤ m.pmm.freeFrames.card

/-- The partial function after the request, on addresses or on descriptors. -/
def MapRequest.overlay (r : MapRequest) (inside : Nat → Nat) (before : Nat → Nat) : Nat → Nat :=
  fun v => if r.va ≤ v ∧ v < r.va + r.size then inside (v - r.va) else before v

def MapRequest.address (r : MapRequest) (offset : Nat) : Nat := r.phys + offset

def MapRequest.descriptor (r : MapRequest) (offset : Nat) : Nat :=
  (r.phys + offset / pageSize * pageSize) ||| r.flags ||| 0b11

/-- One `map`: the law of its leaves, its translation and its frames. -/
structure MapLaw (m m' : Machine) (r : MapRequest) : Prop where
  wellFormed : WellFormed m'
  grown : Grown m m'
  descriptors : ∀ v, v < 2 ^ 39 → m'.leaf v = r.overlay r.descriptor m.leaf v
  addresses : ∀ v, v < 2 ^ 39 → translate m' v = r.overlay r.address (translate m) v

theorem translate_congr {m m' : Machine} (v : Nat) (same : m'.leaf v = m.leaf v) :
    translate m' v = translate m v := by
  rw [translate_leaf, translate_leaf, same]

/-- The address a freshly written leaf translates to. -/
theorem translate_written (m : Machine) (phys flags page v : Nat)
    (aligned : phys % pageSize = 0) (high : phys < 2 ^ 48) (plain : flags &&& addrMask = 0)
    (written : m.leaf v = phys ||| flags ||| 0b11) (offset : v % pageSize = page) :
    translate m v = phys + page := by
  have marked : m.leaf v &&& 0b11 = 0b11 := by rw [written]; exact BitField.or_absorb _ 0b11
  have kept : m.leaf v &&& addrMask = phys := by
    rw [written, Nat.and_or_distrib_right, Nat.and_or_distrib_right, plain,
      show (0b11 &&& addrMask : Nat) = 0 by decide, Nat.or_zero, Nat.or_zero]
    exact BitField.and_mask_self phys 12 48 (by decide) aligned high
  have low : v &&& 0xFFF = page := by
    rw [← offset]; exact BitField.and_low v 12
  rw [translate_leaf, if_pos marked, kept, low]
  apply BitField.or_disjoint phys page 12 aligned
  rw [← offset]
  exact Nat.mod_lt v (by decide)

/-- A request covers its pages. -/
theorem request_page (va size v : Nat) (aligned : va % pageSize = 0) (whole : size % pageSize = 0)
    (hit : va ≤ v ∧ v < va + size) :
    (v - va) / pageSize < 0 + size / pageSize ∧
      v / pageSize = va / pageSize + (v - va) / pageSize ∧
      (v - va) / pageSize * pageSize + v % pageSize = v - va ∧
      (v - va) / pageSize * pageSize < size := by
  simp only [pageSize] at *
  omega

theorem request_page_outside (va size v j : Nat) (aligned : va % pageSize = 0)
    (below : j < 0 + size / pageSize) (miss : ¬ (va ≤ v ∧ v < va + size)) :
    v / pageSize ≠ va / pageSize + j := by
  simp only [pageSize] at *
  omega

theorem map_law (m : Machine) (wf : WellFormed m) (r : MapRequest) (aligned : r.Aligned)
    (budget : r.Affordable m) : MapLaw m (r.apply m) r := by
  obtain ⟨va, phys, size, flags⟩ := r
  obtain ⟨vaPage, physPage, sizePage, virtualEnd, physicalEnd, plain⟩ := aligned
  dsimp only at vaPage physPage sizePage virtualEnd physicalEnd plain
  have trips : intTrips (size / pageSize) = size / pageSize := by
    apply intTrips_small; simp only [pageSize]; omega
  have low : va + (0 + size / pageSize) * pageSize ≤ 2 ^ 39 := by
    simp only [pageSize] at *; omega
  have physical : phys + (0 + size / pageSize) * pageSize ≤ 2 ^ 48 := by
    simp only [pageSize] at *; omega
  -- the opening barrier changes the log only
  have tables := sameTables_emit m .dsbIshst
  have budget' : ((m.emit .dsbIshst).missingTables (pagesFrom va 0 (size / pageSize))).card ≤
      (m.emit .dsbIshst).pmm.freeFrames.card := by
    rw [missing_congr (fun path _ => tables.tableAt path)]
    exact budget
  obtain ⟨m1, done, wf1, grown, inside, outside⟩ := mapPages_spec va phys flags (size / pageSize) 0
    (m.emit .dsbIshst) (tables.wellFormed wf) low vaPage physical budget'
  have result : MapRequest.apply m ⟨va, phys, size, flags⟩ =
      ((invalidatePages va (size / pageSize) 0 m1).emit .dsbIsh).emit .isb := by
    simp only [MapRequest.apply, map, trips, done, ↓reduceIte]
  have flushed : SameTables m1 (MapRequest.apply m ⟨va, phys, size, flags⟩) := by
    rw [result]
    exact ((sameTables_invalidate va _ 0 m1).trans (sameTables_emit _ _)).trans (sameTables_emit _ _)
  have descriptors : ∀ v, v < 2 ^ 39 → (MapRequest.apply m ⟨va, phys, size, flags⟩).leaf v =
      MapRequest.overlay ⟨va, phys, size, flags⟩
        (MapRequest.descriptor ⟨va, phys, size, flags⟩) m.leaf v := by
    intro v lowV
    rw [flushed.leaf v, MapRequest.overlay]
    by_cases hit : va ≤ v ∧ v < va + size
    · obtain ⟨below, page, _, _⟩ := request_page va size v vaPage sizePage hit
      rw [if_pos hit, inside v ((v - va) / pageSize) lowV (Nat.zero_le _) below page]
      rfl
    · rw [if_neg hit, outside v lowV fun j _ below =>
        request_page_outside va size v j vaPage below hit, tables.leaf v]
  refine ⟨flushed.wellFormed wf1, (tables.grown.trans grown).trans flushed.grown, descriptors, ?_⟩
  intro v lowV
  have leaf := descriptors v lowV
  rw [MapRequest.overlay] at leaf ⊢
  by_cases hit : va ≤ v ∧ v < va + size
  · obtain ⟨_, _, offset, end_⟩ := request_page va size v vaPage sizePage hit
    rw [if_pos hit] at leaf ⊢
    simp only [MapRequest.descriptor, MapRequest.address] at leaf ⊢
    have pageAligned : (phys + (v - va) / pageSize * pageSize) % pageSize = 0 := by
      simp only [pageSize] at *; omega
    have pageLow : phys + (v - va) / pageSize * pageSize < 2 ^ 48 := by omega
    rw [translate_written _ _ flags (v % pageSize) v pageAligned pageLow plain leaf rfl,
      Nat.add_assoc, offset]
  · rw [if_neg hit] at leaf ⊢
    exact translate_congr v leaf

/-- Every request of a sequence is aligned and affordable when its turn comes. -/
def Admissible : Machine → List MapRequest → Prop
  | _, [] => True
  | m, r :: rest => r.Aligned ∧ r.Affordable m ∧ Admissible (r.apply m) rest

theorem overlays_congr (inside : MapRequest → Nat → Nat) (requests : List MapRequest)
    (f g : Nat → Nat) (bound : Nat) (same : ∀ v, v < bound → f v = g v) (v : Nat) (low : v < bound) :
    requests.foldl (fun f r => r.overlay (inside r) f) f v =
      requests.foldl (fun f r => r.overlay (inside r) f) g v := by
  induction requests generalizing f g with
  | nil => exact same v low
  | cons r rest ih =>
      apply ih
      intro u lowU
      simp only [MapRequest.overlay]
      split
      · rfl
      · exact same u lowU

theorem maps_law (m : Machine) (wf : WellFormed m) (requests : List MapRequest)
    (admissible : Admissible m requests) :
    WellFormed (requests.foldl MapRequest.apply m) ∧
    Grown m (requests.foldl MapRequest.apply m) ∧
    (∀ v, v < 2 ^ 39 → (requests.foldl MapRequest.apply m).leaf v =
      requests.foldl (fun f r => r.overlay r.descriptor f) m.leaf v) ∧
    (∀ v, v < 2 ^ 39 → translate (requests.foldl MapRequest.apply m) v =
      requests.foldl (fun f r => r.overlay r.address f) (translate m) v) := by
  induction requests generalizing m with
  | nil => exact ⟨wf, Grown.refl m, fun _ _ => rfl, fun _ _ => rfl⟩
  | cons r rest ih =>
      obtain ⟨aligned, affordable, later⟩ := admissible
      have law := map_law m wf r aligned affordable
      obtain ⟨wf', grown, descriptors, addresses⟩ := ih (r.apply m) law.wellFormed later
      refine ⟨wf', law.grown.trans grown, ?_, ?_⟩
      · intro v low
        rw [List.foldl_cons, List.foldl_cons, descriptors v low]
        exact overlays_congr MapRequest.descriptor rest _ _ _ law.descriptors v low
      · intro v low
        rw [List.foldl_cons, List.foldl_cons, addresses v low]
        exact overlays_congr MapRequest.address rest _ _ _ law.addresses v low

/-- `map` refines a range update, and a sequence of maps is the fold of its
updates: the last writer of an address wins. -/
theorem map_refines_range_update (m : Machine) (wf : WellFormed m) :
    (∀ r : MapRequest, r.Aligned → r.Affordable m → MapLaw m (r.apply m) r) ∧
    (∀ requests, Admissible m requests →
      WellFormed (requests.foldl MapRequest.apply m) ∧
      Grown m (requests.foldl MapRequest.apply m) ∧
      (∀ v, v < 2 ^ 39 → (requests.foldl MapRequest.apply m).leaf v =
        requests.foldl (fun f r => r.overlay r.descriptor f) m.leaf v) ∧
      (∀ v, v < 2 ^ 39 → translate (requests.foldl MapRequest.apply m) v =
        requests.foldl (fun f r => r.overlay r.address f) (translate m) v)) :=
  ⟨map_law m wf, maps_law m wf⟩

def deviceRequest : MapRequest where
  va := 0x107FFF8000
  phys := 0x107FFF8000
  size := 0x1000
  flags := pteDeviceRw

theorem deviceRequest_aligned : deviceRequest.Aligned := by constructor <;> decide

theorem deviceRequest_affordable : deviceRequest.Affordable (bootMachine 0x3F7FA000) := by
  have needed : ((bootMachine 0x3F7FA000).missingTables deviceRequest.pages).card ≤ 2 :=
    (Finset.card_filter_le _ _).trans (by decide)
  have free : (bootMachine 0x3F7FA000).pmm.freeFrames.card = 4 := by decide +kernel
  rw [MapRequest.Affordable, free]
  omega

/-- One page of device registers, mapped on a machine with four free frames. -/
theorem map_refines_range_update_device :
    let m := bootMachine 0x3F7FA000
    MapLaw m (deviceRequest.apply m) deviceRequest ∧
      WellFormed ([deviceRequest].foldl MapRequest.apply m) :=
  have law := map_refines_range_update (bootMachine 0x3F7FA000)
    (bootMachine_wellFormed 0x3F7FA000 (by decide) (by decide +kernel)).1
  ⟨law.1 deviceRequest deviceRequest_aligned deviceRequest_affordable,
    (law.2 [deviceRequest] ⟨deviceRequest_aligned, deviceRequest_affordable, trivial⟩).1⟩

end KehindeKernel
