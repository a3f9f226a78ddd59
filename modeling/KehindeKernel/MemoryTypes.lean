import KehindeKernel.FrameOwnership
import KehindeKernel.Interrupts
import KehindeKernel.KernelMain
import KehindeKernel.Lib.Stage1

/-!
What the hardware makes of the tables: the values of MAIR_EL1 and TCR_EL1 that
`mmu_init` stores, and a walk of the tables under them. The walk goes where
`translate` says; the registers of the devices are device memory and everything
else that is mapped is cached, after every session that returns.
-/

namespace KehindeKernel

open Outcome Bytes Driver Stage1

/-- MAIR_EL1 -/
def mair : Nat := 0xFF <<< (0 * 8) ||| 0x00 <<< (1 * 8) ||| 0x04 <<< (2 * 8)

/-- TCR_EL1 with T0SZ, IRGN0, ORGN0, SH0, TG0, EPD1 and IPS. -/
def tcr (ips : Nat) : Nat :=
  25 <<< 0 ||| 1 <<< 8 ||| 1 <<< 10 ||| 3 <<< 12 ||| 0 <<< 14 ||| 1 <<< 23 ||| ips <<< 32

def normalWriteBack : Nat := 0xFF

def deviceNGnRnE : Nat := 0x00

namespace Chip

def board : Chip → Board
  | .pi3 => boardPi3
  | .pi5 => boardPi5

theorem known (chip : Chip) : KnownBoard chip.board := by
  cases chip with
  | pi3 => exact .inl rfl
  | pi5 => exact .inr rfl

/-- `mmu_init` of the two boards. -/
def regime : Chip → Regime
  | .pi3 => ⟨tcr 1, mair⟩
  | .pi5 => ⟨tcr 2, mair⟩

/-- What the hardware does with an address while TTBR0_EL1 holds `l1_table`. -/
def hardware (chip : Chip) (m : Machine) (va : Nat) : Except Fault Target :=
  chip.regime.translate m.mem m.l1Table va

variable (chip : Chip)

theorem inputSize : chip.regime.inputSize = 39 := by cases chip <;> decide

theorem lookups : chip.regime.lookups = 3 := by cases chip <;> decide

/-- TG0 picks the granule that the walk is for. -/
theorem granule : bits chip.regime.tcr 14 2 = 0 := by cases chip <;> decide

theorem kinds : chip.regime.kind 0 = normalWriteBack ∧ chip.regime.kind 1 = deviceNGnRnE := by
  cases chip <;> decide

theorem outputSize : physMemEnd ≤ 2 ^ chip.regime.outputSize ∧
    chip.board.peripheralBase + chip.board.peripheralSize ≤ 2 ^ chip.regime.outputSize ∧
    chip.board.localPeripheralBase + chip.board.localPeripheralSize ≤ 2 ^ chip.regime.outputSize ∧
    2 ^ chip.regime.outputSize ≤ 2 ^ 48 := by
  cases chip <;> decide

/-- Nothing that is mapped to itself is in the heap's window. -/
theorem identity_apart (v : Nat) (same : Identity chip.board v) :
    v < 2 ^ 39 ∧ ¬ (heapBase ≤ v ∧ v < heapBase + heapMaxSize) ∧ v < 2 ^ chip.regime.outputSize := by
  have ends := chip.outputSize
  have windows : v < 2 ^ 39 ∧ ¬ (heapBase ≤ v ∧ v < heapBase + heapMaxSize) := by
    cases chip with
    | pi3 =>
        simp only [board, Identity, boardPi3, physMemEnd, heapBase, heapMaxSize] at same ⊢
        omega
    | pi5 =>
        simp only [board, Identity, boardPi5, physMemEnd, heapBase, heapMaxSize] at same ⊢
        omega
  refine ⟨windows.1, windows.2, ?_⟩
  rcases same with ram | ⟨_, peripheral⟩ | ⟨_, onCore⟩
  · exact Nat.lt_of_lt_of_le ram ends.1
  · exact Nat.lt_of_lt_of_le peripheral ends.2.1
  · exact Nat.lt_of_lt_of_le onCore ends.2.2.1

end Chip

theorem index_slots (va : Nat) : Regime.slot va 2 = l1Index va ∧ Regime.slot va 1 = l2Index va ∧
    Regime.slot va 0 = l3Index va := by
  rw [l1Index_eq, l2Index_eq, l3Index_eq]
  exact ⟨rfl, rfl, rfl⟩

theorem address_bits (descriptor : Nat) : bits descriptor 12 36 * 2 ^ 12 = descriptor &&& addrMask := by
  rw [show addrMask = 2 ^ 48 - 2 ^ 12 from rfl, BitField.and_mask _ 12 48 (by decide), bits]
  omega

theorem page_of_sum (page offset : Nat) (inside : offset < 2 ^ 12) :
    (page * 2 ^ 12 + offset) / pageSize * pageSize = page * 2 ^ 12 := by
  rw [pageSize]
  omega

theorem word_absent {m : Machine} {path : List Nat} {i : Nat} (absent : m.tableAt path = none) : m.word i path = 0 := by
  have here : TableTree.tableAt decodeLink m.mem m.l1Table path = none := absent
  rw [Machine.word, TableTree.entry, here]
  rfl

/-- What the hardware makes of an address, next to what `translate` does. -/
def WalksAlike (chip : Chip) (m : Machine) (v : Nat) : Prop :=
  (translate m v = 2 ^ 64 - 1 ∧ ∃ level, chip.hardware m v = .error (.translation level)) ∨
  (translate m v ≠ 2 ^ 64 - 1 ∧ chip.hardware m v =
    if 2 ^ chip.regime.outputSize ≤ translate m v / pageSize * pageSize then .error (.addressSize 3)
    else if bits (m.leaf v) 10 1 = 0 then .error (.accessFlag 3)
    else .ok ⟨translate m v, chip.regime.kind (bits (m.leaf v) 2 3)⟩)

section Walk

variable (chip : Chip) {m : Machine} (wf : WellFormed m)

include wf

theorem walk_step (v n i table : Nat) (path : List Nat) (index : Regime.slot v (n + 1) = i)
    (valid : TablePath path) (next : TablePath (i :: path)) (inside : i < 512) (found : m.tableAt path = some table) :
    (m.tableAt (i :: path) = none ∧
      chip.regime.walk m.mem v (n + 2) table = .error (.translation (3 - (n + 1)))) ∨
    ∃ child, m.tableAt (i :: path) = some child ∧
      chip.regime.walk m.mem v (n + 2) table = chip.regime.walk m.mem v (n + 1) child := by
  have link := tableAt_child m path table i found
  rcases wf.entries path table i valid inside found with clear | linked
  · rw [clear] at link
    exact .inl ⟨link, Regime.walk_clear (by rw [index]; exact clear)⟩
  · have child : m.tableAt (i :: path) = some (m.mem table i &&& addrMask) := by
      rw [link, decodeLink, if_pos linked]
    obtain ⟨k, below, address, _⟩ := wf.owned (i :: path) _ next child
    obtain ⟨_, _, ram⟩ := frame_range m.pmm wf.sound k below
    have reached := Nat.lt_of_lt_of_le ram chip.outputSize.1
    rw [← address, ← address_bits] at reached
    rw [low_two] at linked
    refine .inr ⟨_, child, ?_⟩
    rw [← address_bits]
    subst index
    exact Regime.walk_table linked reached

/-- The hardware ends at the leaf, or on the way to it where there is none. -/
theorem hardware_leaf (v : Nat) (low : v < 2 ^ 39) :
    (m.leaf v = 0 ∧ ∃ level, chip.hardware m v = .error (.translation level)) ∨
    (m.leaf v &&& 0b11 = 0b11 ∧ chip.hardware m v = chip.regime.leaf 3 12 (m.leaf v) v) := by
  obtain ⟨first, second, third⟩ := index_slots v
  have within : ¬ 2 ^ chip.regime.inputSize ≤ v := by
    rw [chip.inputSize]
    omega
  rw [Chip.hardware, Regime.translate, if_neg within, chip.lookups]
  rcases walk_step chip wf v 1 (l1Index v) m.l1Table [] first TableTree.Valid.nil (l1Path_valid v) (l1Index_lt v) rfl
    with ⟨absent, fault⟩ | ⟨l2Table, found, step⟩
  · have none_ : m.tableAt (l3Path v) = none := by
      rw [Machine.tableAt, l3Path, TableTree.tableAt, ← Machine.tableAt, absent]
      rfl
    exact .inl ⟨word_absent none_, _, fault⟩
  rcases walk_step chip wf v 0 (l2Index v) l2Table [l1Index v] second (l1Path_valid v) (l3Path_valid v)
    (l2Index_lt v) found with ⟨absent, fault⟩ | ⟨l3Table, reached, last⟩
  · exact .inl ⟨word_absent absent, _, step.trans fault⟩
  · have leaf : m.leaf v = m.mem l3Table (l3Index v) := word_of_table m _ _ _ reached
    rw [step, last, leaf]
    rcases wf.entries _ _ _ (l3Path_valid v) (l3Index_lt v) reached with clear | linked
    · exact .inl ⟨clear, _, Regime.walk_clear (by rw [third]; exact clear)⟩
    · refine .inr ⟨linked, ?_⟩
      rw [low_two] at linked
      rw [← third] at linked ⊢
      exact Regime.walk_page linked

/-- The software walk and the hardware's: below 2^39 they agree, up to the output size
and the access flag, which `translate` does not look at. -/
theorem hardware_walk_agrees (v : Nat) (low : v < 2 ^ 39) : WalksAlike chip m v := by
  have address := translate_leaf m v
  rcases hardware_leaf chip wf v low with ⟨clear, fault⟩ | ⟨linked, walked⟩
  · rw [clear] at address
    exact .inl ⟨address, fault⟩
  · have offset : v &&& 0xFFF = v % 2 ^ 12 := BitField.and_low v 12
    have base := address_bits (m.leaf v)
    have aligned : (m.leaf v &&& addrMask) % 2 ^ 12 = 0 := by
      rw [← base]
      exact Nat.mul_mod_left _ _
    have small : bits (m.leaf v) 12 36 < 2 ^ 36 := Nat.mod_lt _ (by decide)
    rw [if_pos linked, offset, BitField.or_disjoint _ _ 12 aligned (Nat.mod_lt _ (by decide)), ← base] at address
    have whole : translate m v / pageSize * pageSize = bits (m.leaf v) 12 36 * 2 ^ 12 :=
      address ▸ page_of_sum _ _ (Nat.mod_lt _ (by decide))
    have mapped : translate m v ≠ 2 ^ 64 - 1 := by
      rw [address]
      clear * - small
      omega
    refine .inr ⟨mapped, ?_⟩
    rw [walked, whole, address]
    rfl

end Walk

theorem hardware_above (chip : Chip) (m : Machine) (v : Nat) (high : 2 ^ 39 ≤ v) :
    chip.hardware m v = .error (.translation 0) := by
  rw [Chip.hardware, Regime.translate, chip.inputSize, if_pos high]

/-- In every run of `map`, `unmap`, `alloc_frame` and `free_frame` in which clients free
what they hold and no `unmap` empties a table, `translate` walks as the hardware does. -/
theorem translate_walks_alike (chip : Chip) (kernelEnd : Nat) (fits : kernelEnd ≤ physMemEnd)
    (memory : Nat → BitVec 64) (mem : Nat → Nat → Nat) (m : Machine)
    (boot : installL1Table kernelEnd memory mem = .ok m) (ops : List MemOp)
    (permitted : PermittedRun (m, ∅) ops) (v : Nat) :
    (v < 2 ^ 39 → WalksAlike chip (Replay.run memStep (m, ∅) ops).2.1 v) ∧
    (2 ^ 39 ≤ v → chip.hardware (Replay.run memStep (m, ∅) ops).2.1 v = .error (.translation 0)) := by
  obtain ⟨k, booted⟩ := installL1Table_booted kernelEnd memory mem m fits boot
  have start := booted.ownedNone (pmmInit_sound kernelEnd memory fits)
  have owned := owned_run (m, ∅) ops start permitted
  exact ⟨hardware_walk_agrees chip owned.wellFormed v, hardware_above chip _ v⟩

theorem translate_walks_alike_round_trip :
    (0x100001000 < 2 ^ 39 → WalksAlike .pi5 (Replay.run memStep (bootMachine 0x3F7FA000, ∅) roundTripOps).2.1 0x100001000) ∧
    (2 ^ 39 ≤ 0x100001000 →
      Chip.pi5.hardware (Replay.run memStep (bootMachine 0x3F7FA000, ∅) roundTripOps).2.1 0x100001000 = .error (.translation 0)) :=
  translate_walks_alike .pi5 0x3F7FA000 (by decide) (fun _ => 0#64) (fun _ _ => 0)
    (bootMachine 0x3F7FA000) (bootMachine_boots 0x3F7FA000 (by decide +kernel)) roundTripOps roundTripOps_permitted
    0x100001000

section Kernel

instance (board : Board) (v : Nat) : Decidable (DeviceWindow board v) := inferInstanceAs (Decidable (_ ∨ _))

/-- The descriptor that maps `v` to itself. -/
def identityWord (v flags : Nat) : Nat := v / pageSize * pageSize ||| flags ||| 0b11

/-- The last request that covers an address decides. -/
theorem identity_descriptors (requests : List MapRequest) (before : Nat → Nat) (v : Nat)
    (identity : ∀ r ∈ requests, r.phys = r.va ∧ r.va % pageSize = 0) :
    requests.foldl (fun f r => r.overlay r.descriptor f) before v =
      requests.foldl (fun word r => if r.va ≤ v ∧ v < r.va + r.size then identityWord v r.flags else word)
        (before v) := by
  induction requests generalizing before with
  | nil => rfl
  | cons r rest ih =>
      obtain ⟨same, bottom⟩ := identity r List.mem_cons_self
      rw [List.foldl_cons, List.foldl_cons, ih _ fun s member => identity s (List.mem_cons_of_mem r member),
        MapRequest.overlay]
      by_cases here : r.va ≤ v ∧ v < r.va + r.size
      · have page : r.va + (v - r.va) / pageSize * pageSize = v / pageSize * pageSize := by
          simp only [pageSize] at bottom ⊢
          omega
        rw [if_pos here, if_pos here, MapRequest.descriptor, identityWord, same, page]
      · rw [if_neg here, if_neg here]

/-- Devices come last. -/
theorem boot_leaf (board : Board) (known : KnownBoard board) (start : Nat) (begins : BootStart start) (v : Nat) :
    (bootRequests board start).foldl (fun f r => r.overlay r.descriptor f) (fun _ => 0) v =
      if DeviceWindow board v then identityWord v pteDeviceRw
      else if v < physMemEnd then identityWord v pteNormalRw
      else 0 := by
  have identity : ∀ r ∈ bootRequests board start, r.phys = r.va ∧ r.va % pageSize = 0 := by
    intro r member
    refine ⟨?_, (bootRequests_aligned board known start begins r member).va⟩
    simp only [bootRequests, List.mem_cons, List.not_mem_nil, or_false] at member
    rcases member with rfl | rfl | rfl | rfl | rfl <;> rfl
  obtain ⟨_, low, high⟩ := begins
  have kernel : sub64 start 0x80000 = start - 0x80000 := sub64_le _ _ low (Nat.lt_of_le_of_lt high (by decide))
  have free : sub64 physMemEnd start = physMemEnd - start := sub64_le _ _ high (by decide)
  rw [identity_descriptors _ _ v identity]
  simp only [bootRequests, List.foldl_cons, List.foldl_nil, identityRequest, kernel, free]
  by_cases onCore : board.localPeripheralBase ≤ v ∧ v < board.localPeripheralBase + board.localPeripheralSize
  · rw [if_pos onCore, if_pos (.inr onCore)]
  by_cases peripheral : board.peripheralBase ≤ v ∧ v < board.peripheralBase + board.peripheralSize
  · rw [if_neg onCore, if_pos peripheral, if_pos (.inl peripheral)]
  have ordinary : ¬ DeviceWindow board v := not_or.mpr ⟨peripheral, onCore⟩
  rw [if_neg onCore, if_neg peripheral, if_neg ordinary]
  by_cases frames : start ≤ v
  · by_cases ram : v < physMemEnd
    · rw [if_pos ⟨frames, by omega⟩, if_pos ram]
    · rw [if_neg (by omega), if_neg (by omega), if_neg (by omega), if_neg ram]
  · rw [if_neg (by omega), if_pos (show v < physMemEnd by omega)]
    by_cases image : 0x80000 ≤ v
    · rw [if_pos ⟨image, by omega⟩]
    · rw [if_neg (by omega), if_pos (by omega)]

/-- What the hardware makes of every address while the shell runs. -/
structure MemoryMap (chip : Chip) (s : Fs Machine) : Prop where
  devices : ∀ v, DeviceWindow chip.board v → chip.hardware s.heap.back v = .ok ⟨v, deviceNGnRnE⟩
  ram : ∀ v, v < physMemEnd → ¬ DeviceWindow chip.board v → chip.hardware s.heap.back v = .ok ⟨v, normalWriteBack⟩
  heap : ∀ v, heapBase ≤ v → v < s.heap.heapEnd →
    chip.hardware s.heap.back v = .ok ⟨translate s.heap.back v, normalWriteBack⟩
  nothing : ∀ v, ¬ Identity chip.board v → ¬ (heapBase ≤ v ∧ v < s.heap.heapEnd) →
    ∃ level, chip.hardware s.heap.back v = .error (.translation level)

/-- A leaf with its access flag set, within the output size. -/
theorem hardware_mapped (chip : Chip) {m : Machine} (wf : WellFormed m) (v flags : Nat) (low : v < 2 ^ 39)
    (leaf : m.leaf v % pageSize = flags) (accessed : bits flags 10 1 = 1)
    (fits : translate m v < 2 ^ chip.regime.outputSize) :
    chip.hardware m v = .ok ⟨translate m v, chip.regime.kind (bits flags 2 3)⟩ := by
  have parts : bits (m.leaf v) 10 1 = bits flags 10 1 ∧ bits (m.leaf v) 2 3 = bits flags 2 3 := by
    simp only [bits, ← leaf, pageSize]
    omega
  have inside : ¬ 2 ^ chip.regime.outputSize ≤ translate m v / pageSize * pageSize :=
    Nat.not_le.mpr (Nat.lt_of_le_of_lt (Nat.div_mul_le_self _ _) fits)
  rcases hardware_walk_agrees chip wf v low with ⟨absent, _⟩ | ⟨_, walked⟩
  · rw [absent] at fits
    exact absurd (Nat.lt_of_lt_of_le fits chip.outputSize.2.2.2) (by decide)
  · rw [walked, if_neg inside, parts.1, accessed, if_neg Nat.one_ne_zero, parts.2]

theorem memory_map (chip : Chip) {p : Pmm} {m : Machine} {s : Fs Machine} (begins : BootStart p.physMemStart)
    (law : BootLaw chip.board p m) (placed : Placed s) (paged : Paged chip.board m s.heap) : MemoryMap chip s := by
  have wf := paged.wellFormed
  have window := placed.heap.window
  have outside : ∀ v, v < 2 ^ 39 → ¬ (heapBase ≤ v ∧ v < s.heap.heapEnd) → s.heap.back.leaf v =
      if DeviceWindow chip.board v then identityWord v pteDeviceRw
      else if v < physMemEnd then identityWord v pteNormalRw
      else 0 := by
    intro v low away
    rw [paged.elsewhere v low away, law.descriptors v low, boot_leaf chip.board chip.known _ begins v]
  have same : ∀ v, Identity chip.board v → v < 2 ^ 39 ∧ ¬ (heapBase ≤ v ∧ v < s.heap.heapEnd) ∧
      translate s.heap.back v = v ∧ translate s.heap.back v < 2 ^ chip.regime.outputSize := by
    intro v mapped
    obtain ⟨low, apart, fits⟩ := chip.identity_apart v mapped
    have away : ¬ (heapBase ≤ v ∧ v < s.heap.heapEnd) := fun covered => apart ⟨covered.1, by omega⟩
    have address : translate s.heap.back v = v := by
      rw [translate_congr v (paged.elsewhere v low away), law.addresses v low, if_pos mapped]
    exact ⟨low, away, address, by rw [address]; exact fits⟩
  obtain ⟨first, second⟩ := chip.kinds
  refine ⟨?_, ?_, ?_, ?_⟩
  · intro v device
    obtain ⟨low, away, address, fits⟩ := same v (.inr device)
    have leaf : s.heap.back.leaf v % pageSize = pteDeviceRw := by
      rw [outside v low away, if_pos device]
      exact descriptor_low _ pteDeviceRw (Nat.mul_mod_left _ _) (by decide)
    rw [hardware_mapped chip wf v _ low leaf (by decide) fits, address]
    exact congrArg (fun kind => Except.ok (Target.mk v kind)) second
  · intro v ram ordinary
    obtain ⟨low, away, address, fits⟩ := same v (.inl ram)
    have leaf : s.heap.back.leaf v % pageSize = pteNormalRw := by
      rw [outside v low away, if_neg ordinary, if_pos ram]
      exact descriptor_low _ pteNormalRw (Nat.mul_mod_left _ _) (by decide)
    rw [hardware_mapped chip wf v _ low leaf (by decide) fits, address]
    exact congrArg (fun kind => Except.ok (Target.mk v kind)) first
  · intro v base top
    have low : v < 2 ^ 39 := Nat.lt_of_lt_of_le top (window.trans (by decide))
    obtain ⟨k, below, _, _, _, address, _⟩ := paged.byte chip.known v base top
    obtain ⟨framePage, _, ram⟩ := frame_range _ wf.sound k below
    have fits : translate s.heap.back v < 2 ^ chip.regime.outputSize := by
      refine Nat.lt_of_lt_of_le ?_ chip.outputSize.1
      simp only [address, physMemEnd, pageSize] at framePage ram ⊢
      omega
    rw [hardware_mapped chip wf v _ low (paged.normal v base top) (by decide) fits]
    exact congrArg (fun kind => Except.ok (Target.mk _ kind)) first
  · intro v unmapped away
    by_cases low : v < 2 ^ 39
    · have clear : s.heap.back.leaf v = 0 := by
        have ordinary : ¬ DeviceWindow chip.board v := fun device => unmapped (.inr device)
        have above : ¬ v < physMemEnd := fun ram => unmapped (.inl ram)
        rw [outside v low away, if_neg ordinary, if_neg above]
      rcases hardware_leaf chip wf v low with ⟨_, fault⟩ | ⟨linked, _⟩
      · exact fault
      · rw [clear] at linked
        contradiction
    · exact ⟨0, hardware_above chip _ v (Nat.not_lt.mp low)⟩

/-- A register at a fixed address is device memory there. -/
def Reaches (chip : Chip) (m : Machine) (port : Port) : Prop :=
  ∀ reg, port = .mmio reg → chip.hardware m reg = .ok ⟨reg, deviceNGnRnE⟩

/-- The console's program and the interrupt handler get to their registers. -/
theorem drivers_reach {α : Type} {chip : Chip} {s : Fs Machine} (map : MemoryMap chip s) (start : Console α) :
    Uses (Reaches chip s.heap.back) (Reaches chip s.heap.back) (start.compile chip.uartBase) ∧
      Uses (Reaches chip s.heap.back) (Reaches chip s.heap.back) chip.handler := by
  have reaches : ∀ reg, DeviceWindow chip.board reg → Reaches chip s.heap.back (.mmio reg) := by
    rintro reg window _ ⟨⟩
    exact map.devices reg window
  have time : Reaches chip s.heap.back .time := fun _ same => by contradiction
  have freq : Reaches chip s.heap.back .freq := fun _ same => by contradiction
  have timer : Reaches chip s.heap.back .cntpTval := fun _ same => by contradiction
  have uart : DeviceWindow chip.board (uart0Fr chip.uartBase) ∧ DeviceWindow chip.board (uart0Dr chip.uartBase) := by
    cases chip with
    | pi3 => decide
    | pi5 => decide
  have counts : Uses (Reaches chip s.heap.back) (Reaches chip s.heap.back) incrementTime :=
    (uses_read time).bind fun _ => uses_write time _
  refine ⟨(console_uses chip.uartBase start).mono ?_ ?_, ?_⟩
  · rintro port (rfl | rfl | rfl)
    · exact reaches _ uart.1
    · exact reaches _ uart.2
    · exact time
  · rintro port rfl
    exact reaches _ uart.2
  · cases chip with
    | pi3 =>
        refine (uses_read (reaches irqC0Source (by decide))).bind fun status =>
          (uses_read (reaches irqP2 (by decide))).bind fun pending => Uses.bind ?_ fun _ =>
          (uses_read freq).bind fun value => ?_
        · split
          · exact uses_write (reaches (uart0Icr uart0BasePi3) (by decide)) _
          · exact .done ()
        · split
          · exact (uses_write timer _).bind fun _ => counts
          · exact .done ()
    | pi5 =>
        refine (uses_read (reaches giccIar (by decide))).bind fun iar => Uses.bind ?_ fun _ =>
          uses_write (reaches giccEoir (by decide)) _
        split
        · exact (uses_read freq).bind fun value => (uses_write timer _).bind fun _ => counts
        · exact .done ()

/-- After every session that returns, the registers of the devices are device memory, RAM
and the heap are cached memory, and no other address gets through the hardware's walk.
The drivers' accesses all go to device memory. -/
theorem kernel_memory_types (chip : Chip) (banner : List UInt8) (kernelEnd : Nat) (low : 0x80000 ≤ kernelEnd)
    (fits : kernelEnd ≤ physMemEnd) (memory : Nat → BitVec 64) (mem : Nat → Nat → Nat)
    (frames : kernelFrames ≤ (pmmInit kernelEnd memory).totalFrames) (raw : Nat → Region) (session : List Typed) :
    Returns (fun r => MemoryMap chip r.2.fs ∧ ∀ start : Console Unit,
        Uses (Reaches chip r.2.fs.heap.back) (Reaches chip r.2.fs.heap.back) (start.compile chip.uartBase) ∧
        Uses (Reaches chip r.2.fs.heap.back) (Reaches chip r.2.fs.heap.back) chip.handler)
      (kernelRun chip.board banner kernelEnd memory mem raw session) := by
  obtain ⟨m, law, keeps⟩ :=
    kernelRun_paged chip.board chip.known banner kernelEnd low fits memory mem frames raw session
  refine keeps.mono fun _ holds => ?_
  have map := memory_map chip (pmmInit_start kernelEnd memory low fits) law holds.1 holds.2
  exact ⟨map, drivers_reach map⟩

theorem kernel_memory_types_small_kernel : Returns (fun r => MemoryMap .pi3 r.2.fs ∧ ∀ start : Console Unit,
      Uses (Reaches .pi3 r.2.fs.heap.back) (Reaches .pi3 r.2.fs.heap.back) (start.compile Chip.pi3.uartBase) ∧
      Uses (Reaches .pi3 r.2.fs.heap.back) (Reaches .pi3 r.2.fs.heap.back) Chip.pi3.handler)
    (kernelRun Chip.pi3.board [] 0x80000 (fun _ => 0#64) (fun _ _ => 0) (fun _ _ => 255) fileSession) :=
  kernel_memory_types .pi3 [] 0x80000 (by decide) (by decide) (fun _ => 0#64) (fun _ _ => 0) (by decide +kernel)
    (fun _ _ => 255) fileSession

end Kernel

end KehindeKernel
