import KehindeKernel.Interrupts
import KehindeKernel.Lib.Turns
import KehindeKernel.VectorTable

/-!
`boot.S`, instruction by instruction, on as many cores as the firmware lets loose.
They share their memory and take turns as they like; the text section lies below
`.bss`, so the code itself stays what it is.
-/

namespace KehindeKernel

open ByteMemory

/-- There is a register to name by a numeral. -/
instance generalRegisters : NeZero 31 := ⟨by decide⟩

/-- Where the firmware may enter the kernel. -/
inductive Level where
  | el1
  | el2
  deriving DecidableEq, Repr

inductive BootReg where
  | mpidrEl1
  | cnthctlEl2
  | cntvoffEl2
  | hcrEl2
  | spsrEl2
  | elrEl2
  | sctlrEl1
  | vbarEl1
  deriving DecidableEq, Repr

structure Core where
  pc : Nat
  x : Fin 31 → BitVec 64
  spEl0 : BitVec 64
  spEl1 : BitVec 64
  spEl2 : BitVec 64
  spSel : Bool
  level : Level
  zero : Bool
  carry : Bool
  daif : BitVec 4
  sys : BootReg → BitVec 64

/-- Addresses of symbols, by `adr` or from the literal pool, are constants of `mov`. -/
inductive BootInstr where
  | b (target : Nat)
  | bne (target : Nat)
  | blo (target : Nat)
  | bl (target : Nat)
  | mov (d : Fin 31) (imm : BitVec 64)
  | andImm (d a : Fin 31) (imm : BitVec 64)
  | bicImm (d a : Fin 31) (imm : BitVec 64)
  | lsrImm (d a : Fin 31) (shift : Nat)
  | cmpImm (a : Fin 31) (imm : BitVec 64)
  | cmp (a b : Fin 31)
  | mrs (d : Fin 31) (s : BootReg)
  | mrsCurrentEl (d : Fin 31)
  | msr (s : BootReg) (a : Reg)
  | msrDaifClr (imm : BitVec 4)
  | movSp (a : Fin 31)
  | stpPost (a b : Reg) (base : Fin 31) (imm : Nat)
  | isb
  | wfe
  | eret
  deriving DecidableEq, Repr

namespace Core

def get (c : Core) : Reg → BitVec 64
  | .x n => c.x n
  | .xzr => 0

def set (c : Core) (d : Fin 31) (value : BitVec 64) : Core := { c with x := Function.update c.x d value }

def next (c : Core) : Core := { c with pc := c.pc + 4 }

def goto (c : Core) (target : Nat) : Core := { c with pc := target }

def currentEl (c : Core) : BitVec 64 :=
  match c.level with
  | .el1 => 0b0100
  | .el2 => 0b1000

/-- The stack pointer that `sp` names. -/
def sp (c : Core) : BitVec 64 :=
  if c.spSel then
    match c.level with
    | .el1 => c.spEl1
    | .el2 => c.spEl2
  else c.spEl0

def setSp (c : Core) (value : BitVec 64) : Core :=
  if c.spSel then
    match c.level with
    | .el1 => { c with spEl1 := value }
    | .el2 => { c with spEl2 := value }
  else { c with spEl0 := value }

/-- The flags of a subtraction: equal, and no borrow. -/
def compare (c : Core) (a b : BitVec 64) : Core := { c with zero := a == b, carry := decide (b.toNat ≤ a.toNat) }

/-- `eret` from EL2. -/
def eret (c : Core) : Core :=
  let spsr := c.sys .spsrEl2
  { c with
    pc := (c.sys .elrEl2).toNat
    spSel := spsr.getLsbD 0
    level := if spsr.extractLsb' 2 2 = 2 then .el2 else .el1
    daif := spsr.extractLsb' 6 4
    zero := spsr.getLsbD 30
    carry := spsr.getLsbD 29 }

def exec (c : Core) (m : Memory) : BootInstr → Core × Memory
  | .b target => (c.goto target, m)
  | .bne target => (if c.zero then c.next else c.goto target, m)
  | .blo target => (if c.carry then c.next else c.goto target, m)
  | .bl target => ((c.set 30 (BitVec.ofNat 64 (c.pc + 4))).goto target, m)
  | .mov d imm => ((c.set d imm).next, m)
  | .andImm d a imm => ((c.set d (c.x a &&& imm)).next, m)
  | .bicImm d a imm => ((c.set d (c.x a &&& ~~~imm)).next, m)
  | .lsrImm d a shift => ((c.set d (c.x a >>> shift)).next, m)
  | .cmpImm a imm => ((c.compare (c.x a) imm).next, m)
  | .cmp a b => ((c.compare (c.x a) (c.x b)).next, m)
  | .mrs d s => ((c.set d (c.sys s)).next, m)
  | .mrsCurrentEl d => ((c.set d c.currentEl).next, m)
  | .msr s a => ({ c with sys := Function.update c.sys s (c.get a) }.next, m)
  | .msrDaifClr imm => ({ c with daif := c.daif &&& ~~~imm }.next, m)
  | .movSp a => ((c.setSp (c.x a)).next, m)
  | .stpPost a b base imm =>
      ((c.set base (c.x base + BitVec.ofNat 64 imm)).next,
        store64 (store64 m (c.x base) (c.get a)) (c.x base + 8) (c.get b))
  | .isb => (c.next, m)
  | .wfe => (c.next, m)
  | .eret => (c.eret, m)

end Core

/-- Where `kernel8.img` is loaded, and `_start`. -/
def loadAddr : Nat := 0x80000

def bootLabel (i : Nat) : Nat := loadAddr + 4 * i

/-- What `linker.ld` promises of its symbols. -/
structure Layout where
  bssStart : Nat
  bssEnd : Nat
  vectorTable : BitVec 64
  kernelMain : Nat
  startAligned : bssStart % 4096 = 0
  endAligned : bssEnd % 4096 = 0
  ordered : bssStart ≤ bssEnd
  small : bssEnd < 2 ^ 64
  behindBoot : bootLabel 39 ≤ kernelMain

/-- `boot.S`; the labels are the numbers of their instructions. -/
def bootProgram (chip : Chip) (layout : Layout) : List BootInstr := [
  -- _start
  match chip with
  | .pi3 => .b (bootLabel 1)
  | .pi5 => .b (bootLabel 6),
  -- start_pi3b, 1
  .mrs 1 .mpidrEl1,
  .andImm 1 1 3,
  .cmpImm 1 0,
  .bne (bootLabel 37),
  .b (bootLabel 7),
  -- start_pi5, 6
  .b (bootLabel 7),
  -- level_init, 7
  .mrsCurrentEl 0,
  .lsrImm 0 0 2,
  .cmpImm 0 2,
  .bne (bootLabel 21),
  .mov 4 0x3,
  .msr .cnthctlEl2 (.x 4),
  .msr .cntvoffEl2 .xzr,
  .mov 4 (1 <<< 31),
  .msr .hcrEl2 (.x 4),
  .mov 4 0x3C5,
  .msr .spsrEl2 (.x 4),
  .mov 4 (BitVec.ofNat 64 (bootLabel 21)),
  .msr .elrEl2 (.x 4),
  .eret,
  -- el1_entry, 21
  .mrs 0 .sctlrEl1,
  .bicImm 0 0 1,
  .msr .sctlrEl1 (.x 0),
  .isb,
  .mov 1 (BitVec.ofNat 64 loadAddr),
  .movSp 1,
  .mov 1 (BitVec.ofNat 64 layout.bssStart),
  .mov 2 (BitVec.ofNat 64 layout.bssEnd),
  .b (bootLabel 31),
  -- 1:, 30
  .stpPost .xzr .xzr 1 16,
  -- 2:, 31
  .cmp 1 2,
  .blo (bootLabel 30),
  .mov 0 layout.vectorTable,
  .msr .vbarEl1 (.x 0),
  .msrDaifClr 2,
  .bl layout.kernelMain,
  -- halt, 37
  .wfe,
  .b (bootLabel 37)]

/-- One instruction of `boot.S`. Behind it `kernel_main` has taken over. -/
def bootStep (chip : Chip) (layout : Layout) (s : Core × Memory) : Core × Memory :=
  if loadAddr ≤ s.1.pc ∧ s.1.pc % 4 = 0 then
    match (bootProgram chip layout)[(s.1.pc - loadAddr) / 4]? with
    | some instr => s.1.exec s.2 instr
    | none => s
  else s

section Steps

variable {chip : Chip} {layout : Layout}

variable (chip layout) in
theorem bootStep_at {c : Core} (m : Memory) {i : Nat} {instr : BootInstr} (pc : c.pc = bootLabel i)
    (found : (bootProgram chip layout)[i]? = some instr) : bootStep chip layout (c, m) = c.exec m instr := by
  have inside : loadAddr ≤ c.pc ∧ c.pc % 4 = 0 := by
    simp only [pc, bootLabel, loadAddr]
    omega
  have index : (c.pc - loadAddr) / 4 = i := by
    simp only [pc, bootLabel]
    omega
  simp only [bootStep, if_pos inside, index, found]

/-- The next instruction is the one behind it. -/
def BootInstr.falls : BootInstr → Bool
  | .b _ | .bne _ | .blo _ | .bl _ | .eret => false
  | _ => true

theorem setSp_pc (c : Core) (value : BitVec 64) : (c.setSp value).pc = c.pc := by
  simp only [Core.setSp]
  split
  · split
    · rfl
    · rfl
  · rfl

theorem exec_falls (c : Core) (m : Memory) {instr : BootInstr} (falls : instr.falls = true) :
    (c.exec m instr).1.pc = c.pc + 4 := by
  cases instr with
  | movSp a => exact congrArg (· + 4) (setSp_pc c _)
  | b | bne | blo | bl | eret => contradiction
  | _ => rfl

variable (chip layout) in
/-- A stretch of instructions without branches. -/
theorem straight (i : Nat) (instrs : List BootInstr) (here : instrs <+: (bootProgram chip layout).drop i)
    (falls : ∀ instr ∈ instrs, instr.falls = true) (c : Core) (m : Memory) (pc : c.pc = bootLabel i) :
    (bootStep chip layout)^[instrs.length] (c, m) = instrs.foldl (fun s instr => s.1.exec s.2 instr) (c, m) ∧
      (instrs.foldl (fun s instr => s.1.exec s.2 instr) (c, m)).1.pc = bootLabel (i + instrs.length) := by
  induction instrs generalizing i c m with
  | nil => exact ⟨rfl, pc⟩
  | cons instr rest ih =>
      obtain ⟨behind, split⟩ := here
      have found : (bootProgram chip layout)[i]? = some instr := by
        rw [← List.head?_drop, ← split]
        rfl
      have later : rest <+: (bootProgram chip layout).drop (i + 1) := by
        rw [← List.drop_drop, ← split]
        exact ⟨behind, rfl⟩
      have after : (c.exec m instr).1.pc = bootLabel (i + 1) := by
        rw [exec_falls c m (falls instr List.mem_cons_self), pc]
        rfl
      obtain ⟨runs, ends⟩ := ih (i + 1) later (fun other member => falls other (List.mem_cons_of_mem _ member))
        (c.exec m instr).1 (c.exec m instr).2 after
      rw [List.length_cons, Function.iterate_succ_apply, bootStep_at chip layout m pc found, List.foldl_cons]
      exact ⟨runs, by rw [ends]; congr 1; omega⟩

end Steps

section Path

variable {chip : Chip} {layout : Layout}

variable (chip layout) in
/-- One core alone, after so many instructions. -/
def Boots (n : Nat) (s s' : Core × Memory) : Prop := (bootStep chip layout)^[n] s = s'

theorem Boots.trans {n k : Nat} {a b c : Core × Memory} (first : Boots chip layout n a b)
    (second : Boots chip layout k b c) : Boots chip layout (n + k) a c := by
  rw [Boots, Nat.add_comm, Function.iterate_add_apply, first]
  exact second

theorem Boots.snoc {n : Nat} {a b c : Core × Memory} (first : Boots chip layout n a b)
    (last : bootStep chip layout b = c) : Boots chip layout (n + 1) a c := first.trans last

/-- From `_start` to `level_init`. -/
def Chip.startTurns : Chip → Nat
  | .pi3 => 6
  | .pi5 => 2

/-- Only general registers and flags differ. -/
structure SameState (c c' : Core) : Prop where
  sys : c'.sys = c.sys
  level : c'.level = c.level
  spSel : c'.spSel = c.spSel
  daif : c'.daif = c.daif

variable (layout) in
theorem start_reaches {c : Core} (m : Memory) (pc : c.pc = bootLabel 0)
    (primary : chip = .pi3 → c.sys .mpidrEl1 &&& 3 = 0) :
    ∃ c', Boots chip layout chip.startTurns (c, m) (c', m) ∧ c'.pc = bootLabel 7 ∧ SameState c c' := by
  cases chip with
  | pi5 =>
      have first : bootStep .pi5 layout (c, m) = (c.goto (bootLabel 6), m) := bootStep_at .pi5 layout m pc rfl
      have second : bootStep .pi5 layout (c.goto (bootLabel 6), m) = ((c.goto (bootLabel 6)).goto (bootLabel 7), m) :=
        bootStep_at .pi5 layout m (i := 6) rfl rfl
      have begins : Boots .pi5 layout 1 (c, m) (c.goto (bootLabel 6), m) := first
      exact ⟨(c.goto (bootLabel 6)).goto (bootLabel 7), begins.snoc second, rfl, ⟨rfl, rfl, rfl, rfl⟩⟩
  | pi3 =>
      have first : bootStep .pi3 layout (c, m) = (c.goto (bootLabel 1), m) := bootStep_at .pi3 layout m pc rfl
      let id := c.sys .mpidrEl1 &&& 3
      let d := ((((c.goto (bootLabel 1)).set 1 (c.sys .mpidrEl1)).next.set 1 id).next.compare id 0).next
      have tests : Boots .pi3 layout 3 (c.goto (bootLabel 1), m) (d, m) :=
        (straight .pi3 layout 1 [.mrs 1 .mpidrEl1, .andImm 1 1 3, .cmpImm 1 0] ⟨_, rfl⟩ (by decide) _ m rfl).1
      have equal : d.zero = true := by
        show (id == 0) = true
        rw [show id = 0 from primary rfl]
        rfl
      have passes : bootStep .pi3 layout (d, m) = (d.next, m) := by
        rw [bootStep_at .pi3 layout m (i := 4) rfl rfl, Core.exec, equal]
        rfl
      have last : bootStep .pi3 layout (d.next, m) = (d.next.goto (bootLabel 7), m) :=
        bootStep_at .pi3 layout m (i := 5) rfl rfl
      have begins : Boots .pi3 layout 1 (c, m) (c.goto (bootLabel 1), m) := first
      exact ⟨d.next.goto (bootLabel 7), ((begins.trans tests).snoc passes).snoc last, rfl, ⟨rfl, rfl, rfl, rfl⟩⟩

/-- From `level_init` to `el1_entry`. -/
def Level.turns : Level → Nat
  | .el1 => 4
  | .el2 => 14

/-- EL1 runs in AArch64 and has the physical timer, and virtual time is physical. -/
structure TimerOpen (sys : BootReg → BitVec 64) : Prop where
  timer : sys .cnthctlEl2 = 3
  offset : sys .cntvoffEl2 = 0
  width : sys .hcrEl2 = 1 <<< 31

/-- At EL1, as the firmware left it or as the `eret` from EL2 did. -/
structure AtEl1 (first c : Core) : Prop where
  pc : c.pc = bootLabel 21
  level : c.level = .el1
  sctlr : c.sys .sctlrEl1 = first.sys .sctlrEl1
  stays : first.level = .el1 → c.spSel = first.spSel ∧ c.daif = first.daif
  drops : first.level = .el2 → c.spSel = true ∧ c.daif = 0b1111 ∧ TimerOpen c.sys

theorem eret_el1 (c : Core) (spsr : c.sys .spsrEl2 = 0x3C5)
    (elr : c.sys .elrEl2 = BitVec.ofNat 64 (bootLabel 21)) :
    c.eret.pc = bootLabel 21 ∧ c.eret.level = .el1 ∧ c.eret.spSel = true ∧ c.eret.daif = 0b1111 := by
  have target : (BitVec.ofNat 64 (bootLabel 21)).toNat = bootLabel 21 := by
    rw [BitVec.toNat_ofNat]
    exact Nat.mod_eq_of_lt (by unfold bootLabel loadAddr; decide)
  have level : ¬ (0x3C5 : BitVec 64).extractLsb' 2 2 = 2 := by decide
  simp only [Core.eret, elr, spsr, target, if_neg level, true_and]
  decide

/-- The registers of EL2, before its `eret`. -/
def setupEl2 : List BootInstr := [
  .mov 4 0x3,
  .msr .cnthctlEl2 (.x 4),
  .msr .cntvoffEl2 .xzr,
  .mov 4 (1 <<< 31),
  .msr .hcrEl2 (.x 4),
  .mov 4 0x3C5,
  .msr .spsrEl2 (.x 4),
  .mov 4 (BitVec.ofNat 64 (bootLabel 21)),
  .msr .elrEl2 (.x 4)]

theorem setupEl2_spec (c : Core) (m : Memory) :
    ∃ c', setupEl2.foldl (fun s instr => s.1.exec s.2 instr) (c, m) = (c', m) ∧ c'.sys .spsrEl2 = 0x3C5 ∧
      c'.sys .elrEl2 = BitVec.ofNat 64 (bootLabel 21) ∧ c'.sys .sctlrEl1 = c.sys .sctlrEl1 ∧ TimerOpen c'.sys := by
  simp only [setupEl2, List.foldl_cons, List.foldl_nil, Core.exec]
  exact ⟨_, rfl, rfl, rfl, rfl, ⟨rfl, rfl, rfl⟩⟩

theorem AtEl1.first {c a b : Core} (arrived : AtEl1 a b) (same : SameState c a) : AtEl1 c b where
  pc := arrived.pc
  level := arrived.level
  sctlr := arrived.sctlr.trans (congrFun same.sys _)
  stays := fun lower => by
    rw [← same.spSel, ← same.daif]
    exact arrived.stays (same.level.trans lower)
  drops := fun higher => arrived.drops (same.level.trans higher)

variable (chip layout) in
theorem level_reaches {c : Core} (m : Memory) (pc : c.pc = bootLabel 7) :
    ∃ c', Boots chip layout c.level.turns (c, m) (c', m) ∧ AtEl1 c c' := by
  let d := (((c.set 0 c.currentEl).next.set 0 (c.currentEl >>> 2)).next.compare (c.currentEl >>> 2) 2).next
  have tests : Boots chip layout 3 (c, m) (d, m) :=
    (straight chip layout 7 [.mrsCurrentEl 0, .lsrImm 0 0 2, .cmpImm 0 2] ⟨_, rfl⟩ (by decide) c m pc).1
  have here : d.pc = bootLabel 10 := by
    show c.pc + 4 + 4 + 4 = _
    rw [pc]
    rfl
  have branch : bootStep chip layout (d, m) = (if d.zero then d.next else d.goto (bootLabel 21), m) :=
    bootStep_at chip layout m here rfl
  cases entered : c.level with
  | el1 =>
      have other : d.zero = false := by
        show (c.currentEl >>> 2 == 2) = false
        rw [Core.currentEl, entered]
        rfl
      rw [other] at branch
      exact ⟨d.goto (bootLabel 21), tests.snoc branch, rfl, entered, rfl, fun _ => ⟨rfl, rfl⟩,
        fun higher => absurd (entered.symm.trans higher) (by decide)⟩
  | el2 =>
      have same : d.zero = true := by
        show (c.currentEl >>> 2 == 2) = true
        rw [Core.currentEl, entered]
        rfl
      rw [same] at branch
      obtain ⟨sets, ends⟩ := straight chip layout 11 setupEl2 ⟨_, rfl⟩ (by decide) d.next m (congrArg (· + 4) here)
      obtain ⟨e, result, spsr, elr, sctlr, opened⟩ := setupEl2_spec d.next m
      rw [result] at sets ends
      obtain ⟨pc', level, own, masks⟩ := eret_el1 e spsr elr
      have drops : bootStep chip layout (e, m) = (e.eret, m) := bootStep_at chip layout m ends rfl
      have setup : Boots chip layout 9 (d.next, m) (e, m) := sets
      exact ⟨e.eret, ((tests.snoc branch).trans setup).snoc drops, pc', level, sctlr,
        fun lower => absurd (entered.symm.trans lower) (by decide),
        fun _ => ⟨own, masks, opened.timer, opened.offset, opened.width⟩⟩

/-- What `el1_entry` makes of the core and what holds from there on. -/
structure Entered (first c : Core) : Prop where
  level : c.level = .el1
  sctlr : c.sys .sctlrEl1 = first.sys .sctlrEl1 &&& ~~~1
  sp : c.sp = BitVec.ofNat 64 loadAddr
  stays : first.level = .el1 → c.spSel = first.spSel ∧ c.daif = first.daif
  drops : first.level = .el2 → c.spSel = true ∧ c.daif = 0b1111 ∧ TimerOpen c.sys

theorem sp_setSp (c : Core) (value : BitVec 64) : (c.setSp value).sp = value := by
  by_cases own : c.spSel = true
  · cases lives : c.level with
    | el1 => simp only [Core.setSp, Core.sp, if_pos own, lives]
    | el2 => simp only [Core.setSp, Core.sp, if_pos own, lives]
  · simp only [Core.setSp, Core.sp, if_neg own]

theorem setSp_kept (c : Core) (value : BitVec 64) : (c.setSp value).level = c.level ∧ (c.setSp value).sys = c.sys ∧
    (c.setSp value).spSel = c.spSel ∧ (c.setSp value).daif = c.daif ∧ (c.setSp value).x = c.x := by
  simp only [Core.setSp]
  split
  · split
    · exact ⟨rfl, rfl, rfl, rfl, rfl⟩
    · exact ⟨rfl, rfl, rfl, rfl, rfl⟩
  · exact ⟨rfl, rfl, rfl, rfl, rfl⟩

variable (chip layout) in
theorem entry_reaches {first c : Core} (arrived : AtEl1 first c) (m : Memory) :
    ∃ c', Boots chip layout 9 (c, m) (c', m) ∧ c'.pc = bootLabel 31 ∧ Entered first c' ∧
      c'.x 1 = BitVec.ofNat 64 layout.bssStart ∧ c'.x 2 = BitVec.ofNat 64 layout.bssEnd := by
  let sctlr := c.sys .sctlrEl1 &&& ~~~1
  let off := ((c.set 0 (c.sys .sctlrEl1)).next.set 0 sctlr).next
  let d := (({ off with sys := Function.update off.sys .sctlrEl1 sctlr } : Core).next.next.set 1
    (BitVec.ofNat 64 loadAddr)).next
  have disables : Boots chip layout 5 (c, m) (d, m) :=
    (straight chip layout 21 [.mrs 0 .sctlrEl1, .bicImm 0 0 1, .msr .sctlrEl1 (.x 0), .isb,
      .mov 1 (BitVec.ofNat 64 loadAddr)] ⟨_, rfl⟩ (by simp [BootInstr.falls]) c m arrived.pc).1
  have here : d.pc = bootLabel 26 := by
    show c.pc + 4 + 4 + 4 + 4 + 4 = _
    rw [arrived.pc]
    rfl
  let e := (d.setSp (BitVec.ofNat 64 loadAddr)).next
  have stack : bootStep chip layout (d, m) = (e, m) := bootStep_at chip layout m here rfl
  have behind : e.pc = bootLabel 27 := congrArg (· + 4) ((setSp_pc d _).trans here)
  let f := ((e.set 1 (BitVec.ofNat 64 layout.bssStart)).next.set 2 (BitVec.ofNat 64 layout.bssEnd)).next
  have bounds : Boots chip layout 2 (e, m) (f, m) :=
    (straight chip layout 27 [.mov 1 (BitVec.ofNat 64 layout.bssStart), .mov 2 (BitVec.ofNat 64 layout.bssEnd)]
      ⟨_, rfl⟩ (by simp [BootInstr.falls]) e m behind).1
  have last : f.pc = bootLabel 29 := congrArg (· + 4 + 4) behind
  have jumps : bootStep chip layout (f, m) = (f.goto (bootLabel 31), m) := bootStep_at chip layout m last rfl
  obtain ⟨level, sys, spSel, daif, _⟩ := setSp_kept d (BitVec.ofNat 64 loadAddr)
  have masked : d.sys .sctlrEl1 = c.sys .sctlrEl1 &&& ~~~1 := rfl
  refine ⟨f.goto (bootLabel 31), ((disables.snoc stack).trans bounds).snoc jumps, rfl, ⟨level.trans arrived.level, ?_,
    sp_setSp d _, fun lower => ?_, fun higher => ?_⟩, rfl, rfl⟩
  · show e.sys .sctlrEl1 = _
    rw [← arrived.sctlr, ← masked]
    exact congrFun sys _
  · obtain ⟨same, masks⟩ := arrived.stays lower
    exact ⟨spSel.trans same, daif.trans masks⟩
  · obtain ⟨own, masks, opened⟩ := arrived.drops higher
    exact ⟨spSel.trans own, daif.trans masks, (congrFun sys _).trans opened.timer, (congrFun sys _).trans opened.offset,
      (congrFun sys _).trans opened.width⟩

/-- Memory with zeros from `a` up to `b`. -/
def zeroed (a b : Nat) (m : Memory) : Memory := fun at_ => if a ≤ at_.toNat ∧ at_.toNat < b then 0 else m at_

theorem zeroed_empty (a : Nat) (m : Memory) : zeroed a a m = m := by
  funext at_
  exact if_neg (by omega)

/-- One `stp` of zeros before the rest. -/
theorem zeroed_pair (a b : Nat) (m : Memory) (room : a + 16 ≤ b) (small : b < 2 ^ 64) :
    zeroed (a + 16) b (store64 (store64 m (BitVec.ofNat 64 a) 0) (BitVec.ofNat 64 a + 8) 0) = zeroed a b m := by
  have byte : ∀ k, (0 : BitVec 64).extractLsb' (8 * k) 8 = 0 := fun _ => BitVec.extractLsb'_zero
  funext at_
  have range := at_.isLt
  have first : (at_ - BitVec.ofNat 64 a).toNat < 8 ↔ a ≤ at_.toNat ∧ at_.toNat < a + 8 := by
    rw [BitVec.toNat_sub, BitVec.toNat_ofNat]
    omega
  have second : (at_ - (BitVec.ofNat 64 a + 8)).toNat < 8 ↔ a + 8 ≤ at_.toNat ∧ at_.toNat < a + 16 := by
    have eight : (8 : BitVec 64).toNat = 8 := rfl
    rw [BitVec.toNat_sub, BitVec.toNat_add, BitVec.toNat_ofNat, eight]
    omega
  simp only [zeroed, store64, first, second, byte]
  by_cases inside : a ≤ at_.toNat ∧ at_.toNat < b
  · rw [if_pos inside]
    split
    · rfl
    · rw [ite_eq_left_iff]
      intro notSecond
      rw [if_pos (by omega)]
  · rw [if_neg inside, if_neg (by omega), if_neg (by omega), if_neg (by omega)]

/-- The loop over `.bss`, with `n` of its trips to come. -/
theorem bss_cleared {first : Core} (n : Nat) {c : Core} (m : Memory) (pc : c.pc = bootLabel 31)
    (entered : Entered first c) (room : 16 * n ≤ layout.bssEnd)
    (next : c.x 1 = BitVec.ofNat 64 (layout.bssEnd - 16 * n)) (stop : c.x 2 = BitVec.ofNat 64 layout.bssEnd) :
    ∃ c', Boots chip layout (3 * n + 2) (c, m) (c', zeroed (layout.bssEnd - 16 * n) layout.bssEnd m) ∧
      c'.pc = bootLabel 33 ∧ Entered first c' := by
  have small := layout.small
  induction n generalizing c m with
  | zero =>
      let d := (c.compare (c.x 1) (c.x 2)).next
      have compares : Boots chip layout 1 (c, m) (d, m) := bootStep_at chip layout m pc rfl
      have here : d.pc = bootLabel 32 := congrArg (· + 4) pc
      have carry : d.carry = true := by
        show decide ((c.x 2).toNat ≤ (c.x 1).toNat) = true
        rw [next, stop]
        exact decide_eq_true (Nat.le_refl _)
      have branch : bootStep chip layout (d, m) = (d.next, m) := by
        rw [bootStep_at chip layout m here rfl, Core.exec, carry]
        rfl
      refine ⟨d.next, ?_, congrArg (· + 4) here,
        ⟨entered.level, entered.sctlr, entered.sp, entered.stays, entered.drops⟩⟩
      rw [Nat.mul_zero, Nat.sub_zero, zeroed_empty]
      exact compares.snoc branch
  | succ n ih =>
      let d := (c.compare (c.x 1) (c.x 2)).next
      have compares : Boots chip layout 1 (c, m) (d, m) := bootStep_at chip layout m pc rfl
      have here : d.pc = bootLabel 32 := congrArg (· + 4) pc
      have carry : d.carry = false := by
        show decide ((c.x 2).toNat ≤ (c.x 1).toNat) = false
        rw [next, stop, BitVec.toNat_ofNat, BitVec.toNat_ofNat]
        exact decide_eq_false (by omega)
      have branch : bootStep chip layout (d, m) = (d.goto (bootLabel 30), m) := by
        rw [bootStep_at chip layout m here rfl, Core.exec, carry]
        rfl
      let m' := store64 (store64 m (c.x 1) 0) (c.x 1 + 8) 0
      let e := ((d.goto (bootLabel 30)).set 1 (c.x 1 + 16)).next
      have stores : bootStep chip layout (d.goto (bootLabel 30), m) = (e, m') :=
        bootStep_at chip layout m (i := 30) rfl rfl
      have later : c.x 1 + 16 = BitVec.ofNat 64 (layout.bssEnd - 16 * n) := by
        rw [next, show (16 : BitVec 64) = BitVec.ofNat 64 16 from rfl, ← BitVec.ofNat_add]
        congr 1
        omega
      obtain ⟨c', runs, ends, keeps⟩ := ih (c := e) m' rfl
        ⟨entered.level, entered.sctlr, entered.sp, entered.stays, entered.drops⟩ (by omega) later stop
      refine ⟨c', ?_, ends, keeps⟩
      have whole := ((compares.snoc branch).snoc stores).trans runs
      have memory : zeroed (layout.bssEnd - 16 * n) layout.bssEnd m' =
          zeroed (layout.bssEnd - 16 * (n + 1)) layout.bssEnd m := by
        have pair := zeroed_pair (layout.bssEnd - 16 * (n + 1)) layout.bssEnd m (by omega) small
        rw [← next, show layout.bssEnd - 16 * (n + 1) + 16 = layout.bssEnd - 16 * n by omega] at pair
        exact pair
      rw [memory] at whole
      rw [show 3 * (n + 1) + 2 = 1 + 1 + 1 + (3 * n + 2) by omega]
      exact whole

structure HandedOver (layout : Layout) (first c : Core) : Prop where
  pc : c.pc = layout.kernelMain
  level : c.level = .el1
  sctlr : c.sys .sctlrEl1 = first.sys .sctlrEl1 &&& ~~~1
  vectors : c.sys .vbarEl1 = layout.vectorTable
  sp : c.sp = BitVec.ofNat 64 loadAddr
  link : c.x 30 = BitVec.ofNat 64 (bootLabel 37)
  stays : first.level = .el1 → c.spSel = first.spSel ∧ c.daif = first.daif &&& 0b1101
  drops : first.level = .el2 → c.spSel = true ∧ c.daif = 0b1101 ∧ TimerOpen c.sys

theorem hands_over {first c : Core} (m : Memory) (pc : c.pc = bootLabel 33) (entered : Entered first c) :
    ∃ c', Boots chip layout 4 (c, m) (c', m) ∧ HandedOver layout first c' := by
  let d := (c.set 0 layout.vectorTable).next
  let e : Core := { d with sys := Function.update d.sys .vbarEl1 layout.vectorTable }.next
  let f : Core := { e with daif := e.daif &&& ~~~2 }.next
  have vectors : Boots chip layout 3 (c, m) (f, m) :=
    (straight chip layout 33 [.mov 0 layout.vectorTable, .msr .vbarEl1 (.x 0), .msrDaifClr 2] ⟨_, rfl⟩
      (by simp [BootInstr.falls]) c m pc).1
  have here : f.pc = bootLabel 36 := congrArg (· + 4 + 4 + 4) pc
  let g := (f.set 30 (BitVec.ofNat 64 (f.pc + 4))).goto layout.kernelMain
  have calls : bootStep chip layout (f, m) = (g, m) := bootStep_at chip layout m here rfl
  refine ⟨g, vectors.snoc calls, rfl, entered.level, entered.sctlr, rfl, entered.sp, ?_, fun lower => ?_,
    fun higher => ?_⟩
  · show BitVec.ofNat 64 (f.pc + 4) = _
    rw [here]
    rfl
  · obtain ⟨own, masks⟩ := entered.stays lower
    exact ⟨own, congrArg (· &&& ~~~2) masks⟩
  · obtain ⟨own, masks, opened⟩ := entered.drops higher
    exact ⟨own, congrArg (· &&& ~~~2) masks, opened.timer, opened.offset, opened.width⟩

/-- Instructions of a core between `_start` and `kernel_main`. -/
def bootTurns (chip : Chip) (layout : Layout) (level : Level) : Nat :=
  chip.startTurns + level.turns + 9 + (3 * ((layout.bssEnd - layout.bssStart) / 16) + 2) + 4

variable (layout) in
theorem boots {c : Core} (m : Memory) (pc : c.pc = bootLabel 0)
    (primary : chip = .pi3 → c.sys .mpidrEl1 &&& 3 = 0) :
    ∃ c', Boots chip layout (bootTurns chip layout c.level) (c, m)
      (c', zeroed layout.bssStart layout.bssEnd m) ∧ HandedOver layout c c' := by
  have small := layout.small
  have ordered := layout.ordered
  have whole : layout.bssEnd - 16 * ((layout.bssEnd - layout.bssStart) / 16) = layout.bssStart := by
    have startAligned := layout.startAligned
    have endAligned := layout.endAligned
    omega
  obtain ⟨a, starts, atLevel, same⟩ := start_reaches layout m pc primary
  obtain ⟨b, levels, arrived⟩ := level_reaches chip layout m atLevel
  obtain ⟨d, enters, atLoop, entered, next, stop⟩ := entry_reaches chip layout (arrived.first same) m
  rw [same.level] at levels
  rw [← whole] at next
  obtain ⟨e, clears, atEnd, keeps⟩ := bss_cleared _ m atLoop entered (by omega) next stop
  obtain ⟨f, calls, handed⟩ := hands_over (zeroed layout.bssStart layout.bssEnd m) atEnd keeps
  rw [whole] at clears
  exact ⟨f, (((starts.trans levels).trans enters).trans clears).trans calls, handed⟩

theorem handed_over_rests {first c : Core} (handed : HandedOver layout first c) (m : Memory) :
    bootStep chip layout (c, m) = (c, m) := by
  have behind := layout.behindBoot
  rw [← handed.pc] at behind
  have past : (bootProgram chip layout)[(c.pc - loadAddr) / 4]? = none := by
    rw [List.getElem?_eq_none_iff]
    show 39 ≤ _
    simp only [bootLabel] at behind
    omega
  simp only [bootStep, past, ite_self]

end Path

section Cores

variable {chip : Chip} {layout : Layout}

/-- Each byte stays as it is or becomes zero. -/
def Zeroes (m m' : Memory) : Prop := ∀ a, m' a = m a ∨ m' a = 0

theorem bootProgram_stores (a b : Reg) (base : Fin 31) (imm : Nat)
    (member : .stpPost a b base imm ∈ bootProgram chip layout) : a = .xzr ∧ b = .xzr := by
  cases chip with
  | pi3 =>
      simp [bootProgram] at member
      exact ⟨member.1, member.2.1⟩
  | pi5 =>
      simp [bootProgram] at member
      exact ⟨member.1, member.2.1⟩

theorem store64_zeroes (m : Memory) (at_ : BitVec 64) : Zeroes m (store64 m at_ 0) := by
  intro a
  simp only [store64]
  split
  · exact .inr BitVec.extractLsb'_zero
  · exact .inl rfl

theorem Zeroes.trans {m m' m'' : Memory} (first : Zeroes m m') (second : Zeroes m' m'') : Zeroes m m'' := by
  intro a
  rcases second a with same | zero
  · rw [same]
    exact first a
  · exact .inr zero

theorem bootStep_zeroes (s : Core × Memory) : Zeroes s.2 (bootStep chip layout s).2 := by
  have stays : Zeroes s.2 s.2 := fun _ => .inl rfl
  simp only [bootStep]
  split
  · split
    · next instr found =>
        cases instr with
        | stpPost a b base imm =>
            obtain ⟨rfl, rfl⟩ := bootProgram_stores a b base imm (List.mem_of_getElem? found)
            exact (store64_zeroes _ _).trans (store64_zeroes _ _)
        | _ => exact stays
    · exact stays
  · exact stays

variable (chip layout) in
theorem iterate_zeroes (n : Nat) (s : Core × Memory) : Zeroes s.2 ((bootStep chip layout)^[n] s).2 := by
  induction n generalizing s with
  | zero => exact fun _ => .inl rfl
  | succ n ih => exact (bootStep_zeroes s).trans (ih _)

/-- A core that is not the first, on its way to `halt` or there. -/
structure Parked (c : Core) : Prop where
  secondary : c.sys .mpidrEl1 &&& 3 ≠ 0
  here : c.pc = bootLabel 0 ∨ c.pc = bootLabel 1 ∨ (c.pc = bootLabel 2 ∧ c.x 1 = c.sys .mpidrEl1) ∨
    (c.pc = bootLabel 3 ∧ c.x 1 = c.sys .mpidrEl1 &&& 3) ∨ (c.pc = bootLabel 4 ∧ c.zero = false) ∨
    c.pc = bootLabel 37 ∨ c.pc = bootLabel 38

variable (layout) in
theorem parked_quiet : Turns.KeepsQuiet (bootStep .pi3 layout) Parked := by
  intro c m parked
  obtain ⟨secondary, here⟩ := parked
  rcases here with pc | pc | ⟨pc, id⟩ | ⟨pc, id⟩ | ⟨pc, other⟩ | pc | pc
  · rw [bootStep_at .pi3 layout m pc rfl]
    exact ⟨⟨secondary, .inr (.inl rfl)⟩, rfl⟩
  · rw [bootStep_at .pi3 layout m pc rfl]
    exact ⟨⟨secondary, .inr (.inr (.inl ⟨congrArg (· + 4) pc, rfl⟩))⟩, rfl⟩
  · rw [bootStep_at .pi3 layout m pc rfl]
    exact ⟨⟨secondary, .inr (.inr (.inr (.inl ⟨congrArg (· + 4) pc, congrArg (· &&& 3) id⟩)))⟩, rfl⟩
  · rw [bootStep_at .pi3 layout m pc rfl]
    refine ⟨⟨secondary, .inr (.inr (.inr (.inr (.inl ⟨congrArg (· + 4) pc, ?_⟩))))⟩, rfl⟩
    show (c.x 1 == 0) = false
    rw [id]
    exact beq_eq_false_iff_ne.mpr secondary
  · rw [bootStep_at .pi3 layout m pc rfl, Core.exec, other]
    exact ⟨⟨secondary, .inr (.inr (.inr (.inr (.inr (.inl rfl)))))⟩, rfl⟩
  · rw [bootStep_at .pi3 layout m pc rfl]
    exact ⟨⟨secondary, .inr (.inr (.inr (.inr (.inr (.inr (congrArg (· + 4) pc))))))⟩, rfl⟩
  · rw [bootStep_at .pi3 layout m pc rfl]
    exact ⟨⟨secondary, .inr (.inr (.inr (.inr (.inr (.inl rfl)))))⟩, rfl⟩

variable (layout) in
/-- A core by itself, after any number of its instructions. What is zero stays zero
until the end, when only `.bss` has changed. -/
theorem core_boots (c : Core) (m : Memory) (entered : c.pc = bootLabel 0)
    (primary : chip = .pi3 → c.sys .mpidrEl1 &&& 3 = 0) (n : Nat) {s : Core × Memory}
    (ran : (bootStep chip layout)^[n] (c, m) = s) :
    (∀ a, s.2 a = m a ∨ layout.bssStart ≤ a.toNat ∧ a.toNat < layout.bssEnd ∧ s.2 a = 0) ∧
    (bootTurns chip layout c.level ≤ n →
      HandedOver layout c s.1 ∧ s.2 = zeroed layout.bssStart layout.bssEnd m) := by
  obtain ⟨last, boot, handed⟩ := boots layout m entered primary
  have rests : ∀ n, bootTurns chip layout c.level ≤ n →
      (bootStep chip layout)^[n] (c, m) = (last, zeroed layout.bssStart layout.bssEnd m) := by
    intro n enough
    obtain ⟨later, rfl⟩ := Nat.exists_eq_add_of_le enough
    rw [Nat.add_comm, Function.iterate_add_apply, boot]
    exact Function.iterate_fixed (handed_over_rests handed _) later
  refine ⟨fun a => ?_, fun enough => ?_⟩
  · have sofar := iterate_zeroes chip layout n (c, m) a
    have later := iterate_zeroes chip layout (bootTurns chip layout c.level) ((bootStep chip layout)^[n] (c, m)) a
    rw [← Function.iterate_add_apply, rests _ (Nat.le_add_right _ _)] at later
    rw [ran] at sofar later
    dsimp only at sofar later
    rcases sofar with same | zero
    · exact .inl same
    · by_cases inside : layout.bssStart ≤ a.toNat ∧ a.toNat < layout.bssEnd
      · exact .inr ⟨inside.1, inside.2, zero⟩
      · rw [zeroed, if_neg inside, zero, or_self] at later
        exact .inl (zero.trans later.symm)
  · rw [rests n enough] at ran
    obtain ⟨core, memory⟩ := Prod.mk.inj ran
    exact ⟨core ▸ handed, memory.symm⟩

/-- However the cores of a Pi 3 take turns from `_start` on, the first gets to
`kernel_main` after so many of its own instructions: at EL1, on its stack, with the
MMU off, the vectors in place, IRQs unmasked and `.bss` clear. The others never write
and get no further than `halt`, and on the way no byte outside `.bss` changes. -/
theorem one_core_boots {ι : Type} [DecidableEq ι] (cores : ι → Core) (m : Memory) (main : ι)
    (entered : ∀ i, (cores i).pc = bootLabel 0) (primary : (cores main).sys .mpidrEl1 &&& 3 = 0)
    (others : ∀ i, i ≠ main → (cores i).sys .mpidrEl1 &&& 3 ≠ 0)
    (schedule : List ι) (s : (ι → Core) × Memory)
    (run : Turns.run (bootStep .pi3 layout) (cores, m) schedule = s) :
    (∀ i, i ≠ main → Parked (s.1 i)) ∧
    (∀ a, s.2 a = m a ∨ layout.bssStart ≤ a.toNat ∧ a.toNat < layout.bssEnd ∧ s.2 a = 0) ∧
    (bootTurns .pi3 layout (cores main).level ≤ schedule.count main →
      HandedOver layout (cores main) (s.1 main) ∧ s.2 = zeroed layout.bssStart layout.bssEnd m) := by
  obtain ⟨alone, still⟩ := Turns.run_solo (parked_quiet layout) main schedule (cores, m) fun i other =>
    ⟨others i other, .inl (entered i)⟩
  rw [run] at alone still
  exact ⟨still, core_boots layout (cores main) m (entered main) (fun _ => primary) _ alone.symm⟩

/-- The boot code of the Pi 5 parks nobody. The one core that the firmware starts gets
to `kernel_main` in the same way, from EL1 or EL2, whatever its MPIDR says. -/
theorem only_core_boots (c : Core) (m : Memory) (entered : c.pc = bootLabel 0) (n : Nat) (s : Core × Memory)
    (ran : (bootStep .pi5 layout)^[n] (c, m) = s) :
    (∀ a, s.2 a = m a ∨ layout.bssStart ≤ a.toNat ∧ a.toNat < layout.bssEnd ∧ s.2 a = 0) ∧
    (bootTurns .pi5 layout c.level ≤ n →
      HandedOver layout c s.1 ∧ s.2 = zeroed layout.bssStart layout.bssEnd m) :=
  core_boots layout c m entered (fun pi3 => by contradiction) n ran

def smallLayout : Layout where
  bssStart := 0x82000
  bssEnd := 0x83000
  vectorTable := 0x80800
  kernelMain := 0x81000
  startAligned := by decide
  endAligned := by decide
  ordered := by decide
  small := by decide
  behindBoot := by decide

/-- As the firmware of the Pi 3 lets the cores loose. -/
def enteredCore (id : Fin 4) : Core where
  pc := 0x80000
  x := fun _ => 99
  spEl0 := 0
  spEl1 := 0
  spEl2 := 0
  spSel := true
  level := .el2
  zero := false
  carry := false
  daif := 0
  sys := fun r => if r = .mpidrEl1 then 0x80000000 ||| BitVec.ofNat 64 id else 0xFF

/-- Two other cores take a turn, and the first core all of its own. -/
def smallSchedule : List (Fin 4) := 1 :: 3 :: List.replicate 803 0

theorem one_core_boots_small_layout :
    HandedOver smallLayout (enteredCore 0)
      ((Turns.run (bootStep .pi3 smallLayout) (enteredCore, fun _ => 7) smallSchedule).1 0) ∧
    (Turns.run (bootStep .pi3 smallLayout) (enteredCore, fun _ => 7) smallSchedule).2 =
      zeroed 0x82000 0x83000 fun _ => 7 := by
  have turns : bootTurns .pi3 smallLayout (enteredCore 0).level ≤ smallSchedule.count 0 := by
    rw [smallSchedule, List.count_cons_of_ne (by decide), List.count_cons_of_ne (by decide), List.count_replicate_self]
    decide
  exact (one_core_boots enteredCore (fun _ => 7) 0 (fun _ => rfl) (by decide) (by decide) smallSchedule _ rfl).2.2 turns

/-- Its MPIDR may say that it is core 2. -/
theorem only_core_boots_small_layout :
    HandedOver smallLayout (enteredCore 2) ((bootStep .pi5 smallLayout)^[900] (enteredCore 2, fun _ => 7)).1 ∧
    ((bootStep .pi5 smallLayout)^[900] (enteredCore 2, fun _ => 7)).2 = zeroed 0x82000 0x83000 fun _ => 7 :=
  (only_core_boots (enteredCore 2) (fun _ => 7) rfl 900 _ rfl).2 (by decide)

end Cores

end KehindeKernel
