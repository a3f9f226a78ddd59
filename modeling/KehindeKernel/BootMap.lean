import KehindeKernel.MapRefinement

/-!
The address space `mmu_init` leaves behind. The five maps share one frame
budget: a map pays for the tables of its own pages, and what it paid for the
maps after it no longer need. With the budget met they are a fold of identity
range updates over an empty address space.
-/

namespace KehindeKernel

open Outcome TableTree

theorem mapPages_budget (va phys flags trips i : Nat) (m : Machine) (wf : WellFormed m)
    (rest : Finset Nat) (spare : Nat) (low : va + (i + trips) * pageSize ≤ 2 ^ 39)
    (budget : (m.missingTables (pagesFrom va i trips ∪ rest)).card + spare ≤
      m.pmm.freeFrames.card) :
    ((mapPages va phys flags trips i m).1.missingTables rest).card + spare ≤
      (mapPages va phys flags trips i m).1.pmm.freeFrames.card := by
  induction trips generalizing i m with
  | zero => simpa [mapPages, pagesFrom] using budget
  | succ trips ih =>
      have lowLater : va + (i + 1 + trips) * pageSize ≤ 2 ^ 39 := by
        rw [Nat.add_right_comm i 1 trips, Nat.add_assoc i trips 1]; exact low
      have here : (va + i * pageSize) % 2 ^ 64 = va + i * pageSize := by
        apply Nat.mod_eq_of_lt
        simp only [pageSize] at low ⊢
        omega
      rw [pagesFrom_succ, Finset.insert_union] at budget
      rcases mapPage_spec m wf (va + i * pageSize) ((phys + i * pageSize) % 2 ^ 64) flags with
        ⟨tables, m1, done, added, written⟩ | ⟨m1, _, starved⟩
      · have later := missing_after_page m tables _ _ spare added budget
        rw [← missing_congr written.tables, ← freeFrames_congr written.pmm] at later
        rw [mapPages, here, done]
        exact ih (i + 1) m1 written.wellFormed lowLater later
      · exact absurd starved (budget_covers m m1 _ _ (Nat.le_of_add_right_le budget))

theorem map_budget (m : Machine) (wf : WellFormed m) (r : MapRequest) (aligned : r.Aligned)
    (rest : Finset Nat) (spare : Nat)
    (budget : (m.missingTables (r.pages ∪ rest)).card + spare ≤ m.pmm.freeFrames.card) :
    ((r.apply m).missingTables rest).card + spare ≤ (r.apply m).pmm.freeFrames.card := by
  have ends := aligned.virtualEnd
  have trips : intTrips (r.size / pageSize) = r.size / pageSize := by
    apply intTrips_small; simp only [pageSize]; omega
  have low : r.va + (0 + r.size / pageSize) * pageSize ≤ 2 ^ 39 := by
    simp only [pageSize]; omega
  have barrier := sameTables_emit m .dsbIshst
  have edits := map_edits m r.va r.phys r.size r.flags
  rw [trips] at edits
  have paid := mapPages_budget r.va r.phys r.flags (r.size / pageSize) 0 (m.emit .dsbIshst)
    (barrier.wellFormed wf) rest spare low
    (by rw [missing_congr fun path _ => barrier.tableAt path]; exact budget)
  rw [MapRequest.apply, missing_congr fun path _ => edits.tableAt path, freeFrames_congr edits.1]
  exact paid

/-- Every page of a sequence of requests. -/
def rangePages (requests : List MapRequest) : Finset Nat :=
  requests.foldr (fun r pages => r.pages ∪ pages) ∅

theorem admissible_of_budget (requests : List MapRequest) (m : Machine) (wf : WellFormed m)
    (aligned : ∀ r ∈ requests, r.Aligned)
    (budget : (m.missingTables (rangePages requests)).card ≤ m.pmm.freeFrames.card) :
    Admissible m requests := by
  induction requests generalizing m with
  | nil => exact trivial
  | cons r rest ih =>
      have here := aligned r List.mem_cons_self
      have affordable : r.Affordable m := by
        apply Nat.le_trans (Finset.card_le_card _) budget
        apply Finset.filter_subset_filter
        exact Finset.biUnion_subset_biUnion_of_subset_left _ Finset.subset_union_left
      have law := map_law m wf r here affordable
      exact ⟨here, affordable, ih (r.apply m) law.wellFormed
        (fun s member => aligned s (List.mem_cons_of_mem r member))
        (map_budget m wf r here (rangePages rest) 0 budget)⟩

theorem spare_after_maps (requests : List MapRequest) (m : Machine) (wf : WellFormed m)
    (aligned : ∀ r ∈ requests, r.Aligned) (spare : Nat)
    (budget : (m.missingTables (rangePages requests)).card + spare ≤ m.pmm.freeFrames.card) :
    spare ≤ (requests.foldl MapRequest.apply m).pmm.freeFrames.card := by
  induction requests generalizing m with
  | nil => exact Nat.le_trans (Nat.le_add_left _ _) budget
  | cons r rest ih =>
      have here := aligned r List.mem_cons_self
      exact ih (r.apply m) (map_grown m wf r.va r.phys r.size r.flags).1
        (fun s member => aligned s (List.mem_cons_of_mem r member))
        (map_budget m wf r here (rangePages rest) spare budget)

def MapRequest.Covers (r : MapRequest) (v : Nat) : Prop := r.va ≤ v ∧ v < r.va + r.size

instance (r : MapRequest) (v : Nat) : Decidable (r.Covers v) :=
  inferInstanceAs (Decidable (_ ∧ _))

/-- Identity requests in any order and with any overlap make one identity map. -/
theorem identity_overlays (requests : List MapRequest) (identity : ∀ r ∈ requests, r.phys = r.va)
    (before : Nat → Nat) (v : Nat) :
    requests.foldl (fun f r => r.overlay r.address f) before v =
      if ∃ r ∈ requests, r.Covers v then v else before v := by
  induction requests generalizing before with
  | nil => simp
  | cons r rest ih =>
      rw [List.foldl_cons, ih (fun s member => identity s (List.mem_cons_of_mem r member))]
      by_cases later : ∃ s ∈ rest, s.Covers v
      · have hit : ∃ s ∈ r :: rest, s.Covers v := by
          obtain ⟨s, member, covers⟩ := later
          exact ⟨s, List.mem_cons_of_mem r member, covers⟩
        rw [if_pos later, if_pos hit]
      · rw [if_neg later]
        by_cases here : r.Covers v
        · have same := identity r List.mem_cons_self
          have inside : r.va ≤ v ∧ v < r.va + r.size := here
          rw [if_pos ⟨r, List.mem_cons_self, here⟩, MapRequest.overlay, if_pos inside,
            MapRequest.address, same]
          omega
        · have miss : ¬ ∃ s ∈ r :: rest, s.Covers v := by
            rintro ⟨s, member, covers⟩
            rcases List.mem_cons.mp member with rfl | old
            · exact here covers
            · exact later ⟨s, old, covers⟩
          have outside : ¬ (r.va ≤ v ∧ v < r.va + r.size) := here
          rw [if_neg miss, MapRequest.overlay, if_neg outside]

/-- A walk through one of the L1 entries `tops` needs at most 513 tables each. -/
theorem tables_bound (pages tops : Finset Nat) (known : ∀ v ∈ pages, l1Index v ∈ tops) :
    (pages.biUnion pagePaths).card ≤ 513 * tops.card := by
  have inside : pages.biUnion pagePaths ⊆ tops.image (fun i => [i]) ∪
      (tops ×ˢ Finset.range 512).image (fun pair => [pair.2, pair.1]) := by
    intro path member
    obtain ⟨v, inPages, onWalk⟩ := Finset.mem_biUnion.mp member
    simp only [pagePaths, Finset.mem_insert, Finset.mem_singleton] at onWalk
    rcases onWalk with rfl | rfl
    · exact Finset.mem_union_left _ (Finset.mem_image_of_mem _ (known v inPages))
    · apply Finset.mem_union_right
      exact Finset.mem_image.mpr ⟨(l1Index v, l2Index v),
        Finset.mem_product.mpr ⟨known v inPages, Finset.mem_range.mpr (l2Index_lt v)⟩, rfl⟩
  have upper := Finset.card_image_le (s := tops) (f := fun i => [i])
  have lower := Finset.card_image_le (s := tops ×ˢ Finset.range 512) (f := fun pair => [pair.2, pair.1])
  rw [Finset.card_product, Finset.card_range] at lower
  have both := (Finset.card_le_card inside).trans (Finset.card_union_le _ _)
  omega

def identityRequest (base size flags : Nat) : MapRequest where
  va := base
  phys := base
  size := size
  flags := flags

/-- The five maps of `mmu_init`, in order. -/
def bootRequests (board : Board) (start : Nat) : List MapRequest :=
  [identityRequest 0x00000000 0x00080000 pteNormalRw,
    identityRequest 0x00080000 (sub64 start 0x80000) pteNormalRw,
    identityRequest start (sub64 physMemEnd start) pteNormalRw,
    identityRequest board.peripheralBase board.peripheralSize pteDeviceRw,
    identityRequest board.localPeripheralBase board.localPeripheralSize pteDeviceRw]

theorem mmuInit_fold (board : Board) (kernelEnd : Nat) (memory : Nat → BitVec 64)
    (mem : Nat → Nat → Nat) :
    mmuInit board kernelEnd memory mem = (do
      let m ← installL1Table kernelEnd memory mem
      pure ((bootRequests board m.pmm.physMemStart).foldl MapRequest.apply m)) := rfl

/-- The tables below the top one that the five maps need. -/
def bootTables (board : Board) (start : Nat) : Finset (List Nat) :=
  (rangePages (bootRequests board start)).biUnion pagePaths

/-- The kernel image ends in RAM, and behind it there is a frame for every table. -/
structure EnoughFrames (board : Board) (kernelEnd : Nat) (p : Pmm) : Prop where
  image : kernelEnd ≤ physMemEnd
  tables : (bootTables board p.physMemStart).card + 1 ≤ p.totalFrames

def KnownBoard (board : Board) : Prop := board = boardPi3 ∨ board = boardPi5

/-- RAM and the two device windows. -/
def Identity (board : Board) (v : Nat) : Prop :=
  v < physMemEnd ∨
    (board.peripheralBase ≤ v ∧ v < board.peripheralBase + board.peripheralSize) ∨
    (board.localPeripheralBase ≤ v ∧ v < board.localPeripheralBase + board.localPeripheralSize)

instance (board : Board) (v : Nat) : Decidable (Identity board v) :=
  inferInstanceAs (Decidable (_ ∨ _))

/-- Where the managed frames begin, whatever the kernel's size. -/
structure BootStart (start : Nat) : Prop where
  page : start % pageSize = 0
  low : 0x80000 ≤ start
  high : start ≤ physMemEnd

theorem pmmInit_start (kernelEnd : Nat) (memory : Nat → BitVec 64) (low : 0x80000 ≤ kernelEnd)
    (fits : kernelEnd ≤ physMemEnd) : BootStart (pmmInit kernelEnd memory).physMemStart := by
  obtain ⟨image, bitmap, page, _, tiled, _⟩ := pmmInit_geometry kernelEnd memory fits
  exact ⟨page, by omega, by omega⟩

theorem identityRequest_aligned (base size flags : Nat) (page : base % pageSize = 0)
    (whole : size % pageSize = 0) (ends : base + size ≤ 2 ^ 39)
    (plain : flags &&& addrMask = 0) : (identityRequest base size flags).Aligned where
  va := page
  phys := page
  size := whole
  virtualEnd := ends
  physicalEnd := Nat.le_trans ends (by decide)
  flags := plain

theorem bootRequests_aligned (board : Board) (known : KnownBoard board) (start : Nat)
    (begins : BootStart start) : ∀ r ∈ bootRequests board start, r.Aligned := by
  obtain ⟨page, low, high⟩ := begins
  have normal : pteNormalRw &&& addrMask = 0 := by decide
  have device : pteDeviceRw &&& addrMask = 0 := by decide
  simp only [physMemEnd, pageSize] at page high
  have kernel : sub64 start 0x80000 = start - 0x80000 := sub64_le _ _ low (by omega)
  have free : sub64 physMemEnd start = 0x3F800000 - start := sub64_le _ _ high (by decide)
  intro r member
  simp only [bootRequests, kernel, free, List.mem_cons, List.not_mem_nil, or_false] at member
  rcases member with rfl | rfl | rfl | rfl | rfl
  · exact identityRequest_aligned _ _ _ (by decide) (by decide) (by decide) normal
  · exact identityRequest_aligned _ _ _ (by decide) (by simp only [pageSize]; omega) (by omega) normal
  · exact identityRequest_aligned _ _ _ page (by simp only [pageSize]; omega) (by omega) normal
  · rcases known with rfl | rfl
    · exact identityRequest_aligned _ _ _ (by decide) (by decide) (by decide) device
    · exact identityRequest_aligned _ _ _ (by decide) (by decide) (by decide) device
  · rcases known with rfl | rfl
    · exact identityRequest_aligned _ _ _ (by decide) (by decide) (by decide) device
    · exact identityRequest_aligned _ _ _ (by decide) (by decide) (by decide) device

theorem bootRequests_cover (board : Board) (start : Nat) (begins : BootStart start) (v : Nat) :
    (∃ r ∈ bootRequests board start, r.Covers v) ↔ Identity board v := by
  obtain ⟨_, low, high⟩ := begins
  simp only [physMemEnd] at high
  have kernel : sub64 start 0x80000 = start - 0x80000 := sub64_le _ _ low (by omega)
  have free : sub64 physMemEnd start = 0x3F800000 - start := sub64_le _ _ high (by decide)
  simp only [bootRequests, kernel, free, List.exists_mem_cons_iff, List.not_mem_nil, false_and,
    exists_false, or_false, MapRequest.Covers, identityRequest]
  simp only [Identity, physMemEnd]
  omega

/-- All frames are free when the PMM is up, and all tables but the top one are missing. -/
theorem Booted.budget {kernelEnd : Nat} {memory : Nat → BitVec 64} {m : Machine} {k : Nat}
    (booted : Booted (pmmInit kernelEnd memory) m k) (fits : kernelEnd ≤ physMemEnd)
    (pages : Finset Nat) (spare : Nat)
    (enough : (pages.biUnion pagePaths).card + 1 + spare ≤ (pmmInit kernelEnd memory).totalFrames) :
    (m.missingTables pages).card + spare ≤ m.pmm.freeFrames.card := by
  have all : (pmmInit kernelEnd memory).freeFrames =
      Finset.range (pmmInit kernelEnd memory).totalFrames := by
    apply Finset.filter_true_of_mem
    intro j member
    have below := Finset.mem_range.mp member
    have clear := pmmInit_bit kernelEnd memory fits j (by omega)
    rw [clear]
    exact decide_eq_false (Nat.not_le.mpr below)
  have left := freeFrames_card _ k booted.below booted.unused
  rw [all, Finset.card_range, ← booted.pmm] at left
  have missing : (m.missingTables pages).card ≤ (pages.biUnion pagePaths).card :=
    Finset.card_filter_le _ _
  omega

/-- What the five maps leave behind: one fold of updates over an empty tree. -/
structure BootLaw (board : Board) (p : Pmm) (m : Machine) : Prop where
  wellFormed : WellFormed m
  start : m.pmm.physMemStart = p.physMemStart
  total : m.pmm.totalFrames = p.totalFrames
  free : p.totalFrames ≤ m.pmm.freeFrames.card + ((bootTables board p.physMemStart).card + 1)
  descriptors : ∀ v, v < 2 ^ 39 → m.leaf v =
    (bootRequests board p.physMemStart).foldl (fun f r => r.overlay r.descriptor f) (fun _ => 0) v
  addresses : ∀ v, v < 2 ^ 39 → translate m v = if Identity board v then v else 2 ^ 64 - 1

theorem mmuInit_law (board : Board) (known : KnownBoard board) (kernelEnd : Nat)
    (low : 0x80000 ≤ kernelEnd) (memory : Nat → BitVec 64) (mem : Nat → Nat → Nat)
    (enough : EnoughFrames board kernelEnd (pmmInit kernelEnd memory)) :
    ∃ m, mmuInit board kernelEnd memory mem = .ok m ∧
      BootLaw board (pmmInit kernelEnd memory) m := by
  have fits := enough.image
  have sound := pmmInit_sound kernelEnd memory fits
  have begins := pmmInit_start kernelEnd memory low fits
  -- the top table takes the first frame, so `installL1Table` does not hang
  cases installed : installL1Table kernelEnd memory mem with
  | error stop =>
      exfalso
      rcases allocFrame_spec _ sound with ⟨k, below, _, _, alloc⟩ | ⟨full, _⟩
      · simp only [installL1Table, alloc, if_neg (frame_address _ sound k below).2.2] at installed
        contradiction
      · have some := enough.tables
        have taken := full 0 (by omega)
        have clear := pmmInit_bit kernelEnd memory fits 0 (by omega)
        rw [taken, decide_eq_false (by omega)] at clear
        exact Bool.false_ne_true clear.symm
  | ok first =>
      obtain ⟨k, booted⟩ := installL1Table_booted kernelEnd memory mem first fits installed
      have wf := booted.wellFormed sound
      have start : first.pmm.physMemStart = (pmmInit kernelEnd memory).physMemStart := by
        rw [booted.pmm, Pmm.markUsed_physMemStart]
      have total : first.pmm.totalFrames = (pmmInit kernelEnd memory).totalFrames := by
        rw [booted.pmm, Pmm.markUsed_totalFrames]
      have aligned := bootRequests_aligned board known _ begins
      have budget := booted.budget fits (rangePages (bootRequests board _))
        ((pmmInit kernelEnd memory).totalFrames - ((bootTables board _).card + 1))
        (Nat.add_sub_of_le enough.tables).le
      have admissible := admissible_of_budget _ first wf aligned (Nat.le_of_add_right_le budget)
      have spare := spare_after_maps _ first wf aligned _ budget
      obtain ⟨wf', grown, descriptors, addresses⟩ := maps_law first wf _ admissible
      refine ⟨_, ?_, wf', grown.start.trans start, grown.total.trans total,
        Nat.sub_le_iff_le_add.mp spare, ?_, ?_⟩
      · rw [mmuInit_fold, installed, ok_bind, start]
        rfl
      · intro v lowV
        rw [descriptors v lowV]
        exact overlays_congr MapRequest.descriptor _ _ _ (2 ^ 39)
          (fun u _ => booted.clearLeaf u) v lowV
      · intro v lowV
        have identity : ∀ r ∈ bootRequests board (pmmInit kernelEnd memory).physMemStart,
            r.phys = r.va := by
          intro r member
          simp only [bootRequests, List.mem_cons, List.not_mem_nil, or_false] at member
          rcases member with rfl | rfl | rfl | rfl | rfl <;> rfl
        rw [addresses v lowV, identity_overlays _ identity, booted.unmapped v]
        simp only [bootRequests_cover board _ begins v]

theorem mem_rangePages (requests : List MapRequest) (v : Nat) (member : v ∈ rangePages requests) :
    ∃ r ∈ requests, r.Covers v := by
  induction requests with
  | nil => simp [rangePages] at member
  | cons r rest ih =>
      have parts : v ∈ r.pages ∪ rangePages rest := member
      rcases Finset.mem_union.mp parts with here | later
      · obtain ⟨j, inside, rfl⟩ := Finset.mem_image.mp here
        have below := (Finset.mem_Ico.mp inside).2
        refine ⟨r, List.mem_cons_self, Nat.le_add_right _ _, ?_⟩
        simp only [pageSize] at below ⊢
        omega
      · obtain ⟨s, old, covers⟩ := ih later
        exact ⟨s, List.mem_cons_of_mem r old, covers⟩

/-- Three L1 entries serve both boards, so 1540 frames are always enough. -/
theorem bootTables_card (board : Board) (known : KnownBoard board) (start : Nat)
    (begins : BootStart start) : (bootTables board start).card ≤ 1539 := by
  have within := tables_bound (rangePages (bootRequests board start))
    {0, l1Index board.peripheralBase, l1Index board.localPeripheralBase} (by
      intro v member
      have mapped := (bootRequests_cover board start begins v).mp (mem_rangePages _ v member)
      simp only [Finset.mem_insert, Finset.mem_singleton, l1Index_eq]
      rcases known with rfl | rfl
      · simp only [Identity, physMemEnd, boardPi3] at mapped ⊢
        omega
      · simp only [Identity, physMemEnd, boardPi5] at mapped ⊢
        omega)
  exact within.trans (Nat.mul_le_mul_left 513 Finset.card_le_three)

theorem enough_frames (board : Board) (known : KnownBoard board) (kernelEnd : Nat)
    (memory : Nat → BitVec 64) (low : 0x80000 ≤ kernelEnd) (fits : kernelEnd ≤ physMemEnd)
    (room : 1540 ≤ (pmmInit kernelEnd memory).totalFrames) :
    EnoughFrames board kernelEnd (pmmInit kernelEnd memory) := by
  have begins := pmmInit_start kernelEnd memory low fits
  have bound := bootTables_card board known _ begins
  exact ⟨fits, by omega⟩

/-- `mmu_init` returns, and its address space is the identity on RAM and on the
two device windows and empty elsewhere. -/
theorem mmu_init_identity_map (board : Board) (known : KnownBoard board) (kernelEnd : Nat)
    (low : 0x80000 ≤ kernelEnd) (memory : Nat → BitVec 64) (mem : Nat → Nat → Nat)
    (enough : EnoughFrames board kernelEnd (pmmInit kernelEnd memory)) :
    ∃ m, mmuInit board kernelEnd memory mem = .ok m ∧
      ∀ v, v < 2 ^ 39 → translate m v = if Identity board v then v else 2 ^ 64 - 1 := by
  obtain ⟨m, done, law⟩ := mmuInit_law board known kernelEnd low memory mem enough
  exact ⟨m, done, law.addresses⟩

/-- The smallest kernel on the first board. -/
theorem mmu_init_identity_map_small_kernel :
    ∃ m, mmuInit boardPi3 0x80000 (fun _ => 0#64) (fun _ _ => 0) = .ok m ∧
      ∀ v, v < 2 ^ 39 → translate m v = if Identity boardPi3 v then v else 2 ^ 64 - 1 :=
  mmu_init_identity_map boardPi3 (Or.inl rfl) 0x80000 (by decide) (fun _ => 0#64) (fun _ _ => 0)
    (enough_frames boardPi3 (Or.inl rfl) 0x80000 (fun _ => 0#64) (by decide) (by decide)
      (by decide +kernel))

end KehindeKernel
