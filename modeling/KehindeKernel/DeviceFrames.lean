import KehindeKernel.BootMap

/-!
Which memory `alloc_frame` hands out after `mmu_init`. The PMM manages frames up
to PHYS_MEM_END, and on the Pi 3 PERIPHERAL_BASE lies below that, so the last
frames are device registers: the fourth map of `mmu_init` overwrites their
descriptors after the third one wrote them.
-/

namespace KehindeKernel

/-- What `mmu_init` maps as Device memory. -/
def DeviceWindow (board : Board) (v : Nat) : Prop :=
  (board.peripheralBase ≤ v ∧ v < board.peripheralBase + board.peripheralSize) ∨
    (board.localPeripheralBase ≤ v ∧ v < board.localPeripheralBase + board.localPeripheralSize)

/-- The frame at `addr` lies outside the device windows, and the leaf of its
identity mapping is the Normal one. -/
def OrdinaryFrame (board : Board) (m : Machine) (addr : Nat) : Prop :=
  ¬ DeviceWindow board addr ∧ m.leaf addr = addr ||| pteNormalRw ||| 0b11

/-- Every frame the calls `ops` hand out is ordinary memory. The calls write the
bitmap only, so the tables are those of `m` throughout. -/
def HandsOutRam (board : Board) (m : Machine) (p : Pmm) (ops : List PmmOp) : Prop :=
  ∀ addr, some addr ∈ (Replay.run pmmStep p ops).1 → addr ≠ 0 → OrdinaryFrame board m addr

/-- An allocation finds a free frame below the peripherals, or none at all. -/
def RamNext (board : Board) (p : Pmm) : PmmOp → Prop
  | .alloc => p.freeFrames = ∅ ∨ ∃ k ∈ p.freeFrames, p.frame k < board.peripheralBase
  | .free _ => True

def RamRun (board : Board) : Pmm → List PmmOp → Prop
  | _, [] => True
  | p, op :: rest => RamNext board p op ∧ RamRun board (pmmStep p op).2 rest

theorem peripherals_above (board : Board) (known : KnownBoard board) (addr : Nat)
    (high : addr < physMemEnd) :
    ((board.peripheralBase ≤ addr ∧ addr < board.peripheralBase + board.peripheralSize) ↔
      board.peripheralBase ≤ addr) ∧
    ¬ (board.localPeripheralBase ≤ addr ∧
      addr < board.localPeripheralBase + board.localPeripheralSize) := by
  simp only [physMemEnd] at high
  rcases known with rfl | rfl
  · simp only [boardPi3]; omega
  · simp only [boardPi5]; omega

theorem deviceWindow_iff (board : Board) (known : KnownBoard board) (addr : Nat)
    (high : addr < physMemEnd) : DeviceWindow board addr ↔ board.peripheralBase ≤ addr := by
  obtain ⟨peripheral, notLocal⟩ := peripherals_above board known addr high
  rw [DeviceWindow, peripheral]
  exact or_iff_left notLocal

theorem page_offset (base addr : Nat) (basePage : base % pageSize = 0) (page : addr % pageSize = 0)
    (low : base ≤ addr) : base + (addr - base) / pageSize * pageSize = addr := by
  simp only [pageSize] at *
  omega

theorem boot_descriptor (board : Board) (known : KnownBoard board) (start addr : Nat)
    (begins : BootStart start) (page : addr % pageSize = 0) (low : start ≤ addr)
    (high : addr < physMemEnd) :
    (bootRequests board start).foldl (fun f r => r.overlay r.descriptor f) (fun _ => 0) addr =
      addr ||| (if addr < board.peripheralBase then pteNormalRw else pteDeviceRw) ||| 0b11 := by
  have free : sub64 physMemEnd start = physMemEnd - start := sub64_le _ _ begins.high (by decide)
  have ram : start ≤ addr ∧ addr < start + sub64 physMemEnd start := by omega
  obtain ⟨peripheral, notLocal⟩ := peripherals_above board known addr high
  have basePage : board.peripheralBase % pageSize = 0 := by
    rcases known with rfl | rfl <;> decide
  simp only [bootRequests, List.foldl_cons, List.foldl_nil, MapRequest.overlay, identityRequest,
    MapRequest.descriptor]
  rw [if_neg notLocal]
  by_cases below : addr < board.peripheralBase
  · rw [if_neg (fun inside => Nat.not_le.mpr below inside.1), if_pos ram, if_pos below,
      page_offset start addr begins.page page low]
  · -- the fourth map comes after the third one and wins
    have above := Nat.not_lt.mp below
    rw [if_pos (peripheral.mpr above), if_neg below, page_offset _ addr basePage page above]

theorem ordinary_iff (board : Board) (known : KnownBoard board) (p : Pmm) (m : Machine)
    (law : BootLaw board p m) (begins : BootStart p.physMemStart) (addr : Nat)
    (page : addr % pageSize = 0) (low : p.physMemStart ≤ addr) (high : addr < physMemEnd) :
    OrdinaryFrame board m addr ↔ addr < board.peripheralBase := by
  have leaf := law.descriptors addr (Nat.lt_trans high (by decide))
  rw [boot_descriptor board known _ addr begins page low high] at leaf
  rw [OrdinaryFrame, deviceWindow_iff board known addr high, leaf]
  by_cases ram : addr < board.peripheralBase
  · simp [ram]
  · simp [ram]

structure SameRegion (start : Nat) (p : Pmm) : Prop where
  sound : p.Sound
  start : p.physMemStart = start

theorem SameRegion.step {start : Nat} {p : Pmm} (same : SameRegion start p) (op : PmmOp) :
    SameRegion start (pmmStep p op).2 where
  sound := by
    cases op with
    | alloc => exact allocFrame_sound p same.sound
    | free addr => exact freeFrame_sound p same.sound addr
  start := (pmmStep_geometry p op).2.2.trans same.start

section Runs

variable (board : Board) (known : KnownBoard board) (p₀ : Pmm) (m : Machine)
  (law : BootLaw board p₀ m) (begins : BootStart p₀.physMemStart)

include known law begins

/-- One allocation: the lowest free frame is ordinary iff some free frame is. -/
theorem alloc_ordinary_iff (p : Pmm) (same : SameRegion p₀.physMemStart p) :
    ((allocFrame p).1 ≠ 0 → OrdinaryFrame board m (allocFrame p).1) ↔ RamNext board p .alloc := by
  rcases allocFrame_spec p same.sound with ⟨k, below, unused, least, alloc⟩ | ⟨full, alloc⟩
  · obtain ⟨page, low, high⟩ := frame_range p same.sound k below
    have ordinary := ordinary_iff board known p₀ m law begins (p.frame k) page
      (same.start.symm.trans_le low) high
    have member := (mem_freeFrames p k).mpr ⟨below, unused⟩
    rw [alloc]
    constructor
    · intro handed
      exact Or.inr ⟨k, member, ordinary.mp (handed (frame_address p same.sound k below).2.2)⟩
    · rintro (none | ⟨j, inFree, ram⟩) _
      · rw [none] at member
        exact absurd member (Finset.notMem_empty k)
      · have order : k ≤ j := by
          by_contra earlier
          have taken := least j (Nat.not_le.mp earlier)
          rw [((mem_freeFrames p j).mp inFree).2] at taken
          exact Bool.false_ne_true taken
        apply ordinary.mpr
        have frames : p.frame k ≤ p.frame j := Nat.add_le_add_left (Nat.mul_le_mul_right _ order) _
        exact Nat.lt_of_le_of_lt frames ram
  · rw [alloc]
    constructor
    · intro _
      exact Or.inl (freeFrames_empty p full)
    · intro _ nonzero
      exact absurd rfl nonzero

theorem ram_run_iff (ops : List PmmOp) (p : Pmm) (same : SameRegion p₀.physMemStart p) :
    HandsOutRam board m p ops ↔ RamRun board p ops := by
  induction ops generalizing p with
  | nil => simp [HandsOutRam, Replay.run, RamRun]
  | cons op rest ih =>
      rw [RamRun, ← ih (pmmStep p op).2 (same.step op)]
      cases op with
      | alloc =>
          rw [← alloc_ordinary_iff board known p₀ m law begins p same]
          simp only [HandsOutRam, Replay.run, pmmStep, List.mem_cons, Option.some.injEq]
          constructor
          · intro all
            exact ⟨all _ (Or.inl rfl), fun addr later => all addr (Or.inr later)⟩
          · rintro ⟨first, later⟩ addr (rfl | member)
            · exact first
            · exact later addr member
      | free freed => simp [HandsOutRam, Replay.run, pmmStep, RamNext]

end Runs

theorem drain (p : Pmm) (sound : p.Sound) (k : Nat) (below : k < p.totalFrames)
    (unused : p.used k = false) :
    ∃ n, some (p.frame k) ∈ (Replay.run pmmStep p (List.replicate n .alloc)).1 := by
  -- each allocation takes one free frame, so the number of them decreases
  induction left : p.freeFrames.card generalizing p with
  | zero =>
      have member := (mem_freeFrames p k).mpr ⟨below, unused⟩
      rw [Finset.card_eq_zero.mp left] at member
      exact absurd member (Finset.notMem_empty k)
  | succ count ih =>
      rcases allocFrame_spec p sound with ⟨j, inside, free, _, alloc⟩ | ⟨full, _⟩
      · by_cases here : k = j
        · refine ⟨1, ?_⟩
          simp [Replay.run, pmmStep, alloc, here]
        · have cost := freeFrames_card p j inside free
          obtain ⟨n, handed⟩ := ih (p.markUsed j) (sound.markUsed j) below (by simp [unused, here])
            (by omega)
          refine ⟨n + 1, ?_⟩
          rw [List.replicate_succ]
          simp only [Replay.run, pmmStep, alloc]
          exact List.mem_cons_of_mem _ handed
      · rw [full k below] at unused
        exact absurd unused.symm Bool.false_ne_true

/-- Where the peripherals begin behind the managed frames, no run reaches them. -/
theorem ram_run_above (board : Board) (above : physMemEnd ≤ board.peripheralBase) (start : Nat)
    (ops : List PmmOp) (p : Pmm) (same : SameRegion start p) : RamRun board p ops := by
  induction ops generalizing p with
  | nil => exact trivial
  | cons op rest ih =>
      refine ⟨?_, ih _ (same.step op)⟩
      cases op with
      | alloc =>
          rcases p.freeFrames.eq_empty_or_nonempty with none | ⟨k, free⟩
          · exact Or.inl none
          · obtain ⟨_, _, high⟩ := frame_range p same.sound k ((mem_freeFrames p k).mp free).1
            exact Or.inr ⟨k, free, Nat.lt_of_lt_of_le high above⟩
      | free addr => exact trivial

/-- Where they begin earlier, the last managed frame is a device register, and
some run hands it out. -/
theorem run_below (board : Board) (known : KnownBoard board) (p₀ : Pmm) (m : Machine)
    (law : BootLaw board p₀ m) (begins : BootStart p₀.physMemStart)
    (early : board.peripheralBase < physMemEnd) (some : 0 < m.pmm.totalFrames) :
    ∃ ops, ¬ HandsOutRam board m m.pmm ops := by
  have sound := law.wellFormed.sound
  have tiled := sound.tiled
  have last : m.pmm.totalFrames - 1 < m.pmm.totalFrames := by omega
  obtain ⟨page, low, high⟩ := frame_range m.pmm sound _ last
  have clear : (freeFrame m.pmm (m.pmm.frame (m.pmm.totalFrames - 1))).used
      (m.pmm.totalFrames - 1) = false := by
    rw [freeFrame_managed m.pmm sound _ last]
    split
    · simp
    · rename_i unused
      exact Bool.eq_false_of_not_eq_true unused
  have region : SameRegion p₀.physMemStart (freeFrame m.pmm (m.pmm.frame (m.pmm.totalFrames - 1))) :=
    SameRegion.step ⟨sound, law.start⟩ (.free _)
  have frame : (freeFrame m.pmm (m.pmm.frame (m.pmm.totalFrames - 1))).frame (m.pmm.totalFrames - 1) =
      m.pmm.frame (m.pmm.totalFrames - 1) := by
    rw [Pmm.frame, region.start, Pmm.frame, law.start]
  have total := region.sound.tiled
  rw [region.start, ← law.start] at total
  obtain ⟨n, handed⟩ := drain _ region.sound (m.pmm.totalFrames - 1)
    (by simp only [pageSize] at total tiled; omega) clear
  rw [frame] at handed
  refine ⟨.free (m.pmm.frame (m.pmm.totalFrames - 1)) :: List.replicate n .alloc, fun ram => ?_⟩
  have ordinary := ram _ (List.mem_cons_of_mem _ handed) (frame_address m.pmm sound _ last).2.2
  have below := (ordinary_iff board known p₀ m law begins _ page (law.start.symm.trans_le low)
    high).mp ordinary
  have device : board.peripheralBase ≤ m.pmm.frame (m.pmm.totalFrames - 1) := by
    simp only [Pmm.frame, pageSize, physMemEnd] at *
    rcases known with rfl | rfl
    · simp only [boardPi3] at *; omega
    · simp only [boardPi5] at early; omega
  omega

/-- The calls of a run hand out ordinary memory exactly when each allocation
finds a free frame below the peripherals; all runs of a board do exactly when
its peripherals begin at PHYS_MEM_END or above. -/
theorem frames_are_ram_iff (board : Board) (known : KnownBoard board) (kernelEnd : Nat)
    (low : 0x80000 ≤ kernelEnd) (memory : Nat → BitVec 64) (mem : Nat → Nat → Nat)
    (enough : EnoughFrames board kernelEnd (pmmInit kernelEnd memory)) (m : Machine)
    (done : mmuInit board kernelEnd memory mem = .ok m) :
    (∀ ops, HandsOutRam board m m.pmm ops ↔ RamRun board m.pmm ops) ∧
      ((∀ ops, HandsOutRam board m m.pmm ops) ↔ physMemEnd ≤ board.peripheralBase) := by
  obtain ⟨m', returned, law⟩ := mmuInit_law board known kernelEnd low memory mem enough
  rw [done, Except.ok.injEq] at returned
  subst returned
  have begins := pmmInit_start kernelEnd memory low enough.image
  have region : SameRegion (pmmInit kernelEnd memory).physMemStart m.pmm :=
    ⟨law.wellFormed.sound, law.start⟩
  have exactly : ∀ ops, HandsOutRam board m m.pmm ops ↔ RamRun board m.pmm ops :=
    fun ops => ram_run_iff board known _ m law begins ops m.pmm region
  refine ⟨exactly, ?_, ?_⟩
  · intro all
    by_contra early
    have tables := enough.tables
    have total := law.total
    obtain ⟨ops, device⟩ := run_below board known _ m law begins (Nat.not_le.mp early) (by omega)
    exact device (all ops)
  · intro above ops
    exact (exactly ops).mpr (ram_run_above board above _ ops m.pmm region)

theorem frames_are_ram_iff_small_kernel :
    ∃ m, mmuInit boardPi5 0x80000 (fun _ => 0#64) (fun _ _ => 0) = .ok m ∧
      (∀ ops, HandsOutRam boardPi5 m m.pmm ops ↔ RamRun boardPi5 m.pmm ops) ∧
      ((∀ ops, HandsOutRam boardPi5 m m.pmm ops) ↔ physMemEnd ≤ boardPi5.peripheralBase) := by
  have enough := enough_frames boardPi5 (Or.inr rfl) 0x80000 (fun _ => 0#64) (by decide) (by decide)
    (by decide +kernel)
  obtain ⟨m, done, _⟩ := mmuInit_law boardPi5 (Or.inr rfl) 0x80000 (by decide) (fun _ => 0#64)
    (fun _ _ => 0) enough
  exact ⟨m, done, frames_are_ram_iff boardPi5 (Or.inr rfl) 0x80000 (by decide) (fun _ => 0#64)
    (fun _ _ => 0) enough m done⟩

/-- A Pi 3 kernel that ends where the peripherals begin: the first frame it
allocates is a device register. -/
theorem alloc_frame_hands_out_device_registers :
    ¬ ∀ (board : Board) (_ : KnownBoard board) (kernelEnd : Nat) (_ : 0x80000 ≤ kernelEnd)
      (memory : Nat → BitVec 64) (mem : Nat → Nat → Nat)
      (_ : EnoughFrames board kernelEnd (pmmInit kernelEnd memory)) (m : Machine)
      (_ : mmuInit board kernelEnd memory mem = .ok m) (ops : List PmmOp),
      HandsOutRam board m m.pmm ops := by
  intro claimed
  have known : KnownBoard boardPi3 := Or.inl rfl
  have total : (pmmInit 0x3F000000 fun _ => 0#64).totalFrames = 2047 := by decide +kernel
  have start : (pmmInit 0x3F000000 fun _ => 0#64).physMemStart = 0x3F001000 := by decide +kernel
  have enough := enough_frames boardPi3 known 0x3F000000 (fun _ => 0#64) (by decide) (by decide)
    (by rw [total]; decide)
  obtain ⟨m, done, law⟩ := mmuInit_law boardPi3 known 0x3F000000 (by decide) (fun _ => 0#64)
    (fun _ _ => 0) enough
  have begins := pmmInit_start 0x3F000000 (fun _ => 0#64) (by decide) (by decide)
  have ram := (ram_run_iff boardPi3 known _ m law begins [.alloc] m.pmm
    ⟨law.wellFormed.sound, law.start⟩).mp
    (claimed boardPi3 known 0x3F000000 (by decide) _ _ enough m done [.alloc])
  rcases ram.1 with none | ⟨k, _, below⟩
  · have left := law.free
    have bound := bootTables_card boardPi3 known _ begins
    rw [none, total, Finset.card_empty] at left
    omega
  · rw [Pmm.frame, law.start, start] at below
    simp only [boardPi3] at below
    omega

end KehindeKernel
