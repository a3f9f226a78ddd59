import Mathlib.Data.Fintype.Basic
import KehindeKernel.Lib.ByteMemory

/-!
The register save and restore stubs of `vector_table.S`, and its table. An exception
saves `x0` to `x30`, `ELR_EL1` and `SPSR_EL1` in a frame of 34 words below the stack
pointer, calls a handler and loads them back. The stack pointer is any 64-bit
value, so a frame may wrap around the address space.
-/

namespace KehindeKernel

open ByteMemory

structure Cpu where
  x : Fin 31 → BitVec 64
  sp : BitVec 64
  elr : BitVec 64
  spsr : BitVec 64
  memory : Memory

inductive Reg where
  | x (n : Fin 31)
  | xzr
  deriving DecidableEq, Repr

inductive SysReg where
  | elrEl1
  | spsrEl1
  deriving DecidableEq, Repr

/-- The instructions of the two macros; memory operands are `[SP, #imm]`. -/
inductive Instr where
  | subSp (imm : Nat)
  | addSp (imm : Nat)
  | stp (a b : Reg) (imm : Nat)
  | ldp (a b : Reg) (imm : Nat)
  | mrs (d : Reg) (s : SysReg)
  | msr (s : SysReg) (d : Reg)
  deriving DecidableEq, Repr

def Cpu.get (m : Cpu) : Reg → BitVec 64
  | .x n => m.x n
  | .xzr => 0

/-- A write to `xzr` is dropped. -/
def Cpu.set (m : Cpu) : Reg → BitVec 64 → Cpu
  | .x n, value => { m with x := Function.update m.x n value }
  | .xzr, _ => m

def Cpu.getSys (m : Cpu) : SysReg → BitVec 64
  | .elrEl1 => m.elr
  | .spsrEl1 => m.spsr

def Cpu.setSys (m : Cpu) : SysReg → BitVec 64 → Cpu
  | .elrEl1, value => { m with elr := value }
  | .spsrEl1, value => { m with spsr := value }

def execInstr (m : Cpu) : Instr → Cpu
  | .subSp imm => { m with sp := m.sp - BitVec.ofNat 64 imm }
  | .addSp imm => { m with sp := m.sp + BitVec.ofNat 64 imm }
  | .stp a b imm =>
      { m with memory := store64 (store64 m.memory (m.sp + BitVec.ofNat 64 imm) (m.get a))
                 (m.sp + BitVec.ofNat 64 (imm + 8)) (m.get b) }
  | .ldp a b imm =>
      (m.set a (load64 m.memory (m.sp + BitVec.ofNat 64 imm))).set b
        (load64 m.memory (m.sp + BitVec.ofNat 64 (imm + 8)))
  | .mrs d s => m.set d (m.getSys s)
  | .msr s d => m.setSys s (m.get d)

def execute (program : List Instr) (m : Cpu) : Cpu := program.foldl execInstr m

/-- `save_registers` -/
def saveRegisters : List Instr :=
  [.subSp 272,
   .stp (.x 0) (.x 1) 0,
   .stp (.x 2) (.x 3) 16,
   .stp (.x 4) (.x 5) 32,
   .stp (.x 6) (.x 7) 48,
   .stp (.x 8) (.x 9) 64,
   .stp (.x 10) (.x 11) 80,
   .stp (.x 12) (.x 13) 96,
   .stp (.x 14) (.x 15) 112,
   .stp (.x 16) (.x 17) 128,
   .stp (.x 18) (.x 19) 144,
   .stp (.x 20) (.x 21) 160,
   .stp (.x 22) (.x 23) 176,
   .stp (.x 24) (.x 25) 192,
   .stp (.x 26) (.x 27) 208,
   .stp (.x 28) (.x 29) 224,
   .stp (.x 30) .xzr 240,
   .mrs (.x 0) .elrEl1,
   .mrs (.x 1) .spsrEl1,
   .stp (.x 0) (.x 1) 256]

/-- `load_registers` -/
def loadRegisters : List Instr :=
  [.ldp (.x 0) (.x 1) 256,
   .msr .elrEl1 (.x 0),
   .msr .spsrEl1 (.x 1),
   .ldp (.x 30) .xzr 240,
   .ldp (.x 28) (.x 29) 224,
   .ldp (.x 26) (.x 27) 208,
   .ldp (.x 24) (.x 25) 192,
   .ldp (.x 22) (.x 23) 176,
   .ldp (.x 20) (.x 21) 160,
   .ldp (.x 18) (.x 19) 144,
   .ldp (.x 16) (.x 17) 128,
   .ldp (.x 14) (.x 15) 112,
   .ldp (.x 12) (.x 13) 96,
   .ldp (.x 10) (.x 11) 80,
   .ldp (.x 8) (.x 9) 64,
   .ldp (.x 6) (.x 7) 48,
   .ldp (.x 4) (.x 5) 32,
   .ldp (.x 2) (.x 3) 16,
   .ldp (.x 0) (.x 1) 0,
   .addSp 272]

/-- `bl`: the link register takes the return address. -/
def branchLink (ret : BitVec 64) (m : Cpu) : Cpu := m.set (.x 30) ret

/-- The machine a handler is entered with. -/
def handlerEntry (ret : BitVec 64) (m : Cpu) : Cpu := branchLink ret (execute saveRegisters m)

/-- `sync_handler`, up to its `eret`. -/
def syncHandler (handleSynchronousInterrupts : Cpu → Cpu) (ret : BitVec 64) (m : Cpu) : Cpu :=
  execute loadRegisters (handleSynchronousInterrupts (handlerEntry ret m))

/-- `irq_handler`, up to its `eret`. -/
def irqHandler (handleInterruptRequests : Cpu → Cpu) (ret : BitVec 64) (m : Cpu) : Cpu :=
  execute loadRegisters (handleInterruptRequests (handlerEntry ret m))

/-- What the stubs rely on: a handler returns with its stack pointer and leaves
the 272 bytes above it alone. -/
structure ReturnsFrame (before after : Cpu) : Prop where
  sp : after.sp = before.sp
  frame : ∀ i < 272, after.memory (before.sp + BitVec.ofNat 64 i) = before.memory (before.sp + BitVec.ofNat 64 i)

/-- All that the interrupted code can see, memory apart. -/
structure Restored (before after : Cpu) : Prop where
  x : after.x = before.x
  sp : after.sp = before.sp
  elr : after.elr = before.elr
  spsr : after.spsr = before.spsr

theorem execute_append (first second : List Instr) (m : Cpu) :
    execute (first ++ second) m = execute second (execute first m) :=
  List.foldl_append

/-- The pairs `x(2k)`, `x(2k+1)` at `16k`. -/
def pair (instr : Reg → Reg → Nat → Instr) (k : Nat) : Instr :=
  instr (.x (Fin.ofNat 31 (2 * k))) (.x (Fin.ofNat 31 (2 * k + 1))) (16 * k)

theorem saveRegisters_pairs : saveRegisters =
    [.subSp 272] ++ ((List.range 15).map (pair .stp) ++
      [.stp (.x 30) .xzr 240, .mrs (.x 0) .elrEl1, .mrs (.x 1) .spsrEl1, .stp (.x 0) (.x 1) 256]) := by
  decide

/-- The instructions of `load_registers` before the pairs below `x30`. -/
def loadSystem : List Instr :=
  [.ldp (.x 0) (.x 1) 256, .msr .elrEl1 (.x 0), .msr .spsrEl1 (.x 1), .ldp (.x 30) .xzr 240]

theorem loadRegisters_pairs : loadRegisters =
    loadSystem ++ (((List.range 15).map (pair .ldp)).reverse ++ [.addSp 272]) := by
  decide

/-- Word `j` of the frame at `base`. -/
def frameWord (m : Cpu) (base : BitVec 64) (j : Nat) : BitVec 64 := load64 m.memory (wordAt base j)

theorem pair_first (base : BitVec 64) (k : Nat) : base + BitVec.ofNat 64 (16 * k) = wordAt base (2 * k) := by
  rw [wordAt, ← Nat.mul_assoc]

theorem pair_second (base : BitVec 64) (k : Nat) :
    base + BitVec.ofNat 64 (16 * k + 8) = wordAt base (2 * k + 1) := by
  rw [wordAt, Nat.mul_succ, ← Nat.mul_assoc]

theorem stp_word (m : Cpu) (a b : Reg) (k : Nat) (inside : k < 17) :
    frameWord (execInstr m (.stp a b (16 * k))) m.sp (2 * k) = m.get a ∧
    frameWord (execInstr m (.stp a b (16 * k))) m.sp (2 * k + 1) = m.get b ∧
    ∀ j < 34, j ≠ 2 * k → j ≠ 2 * k + 1 →
      frameWord (execInstr m (.stp a b (16 * k))) m.sp j = frameWord m m.sp j := by
  simp only [frameWord, execInstr, pair_first, pair_second]
  refine ⟨?_, load64_store64 _ _ _, ?_⟩
  · rw [load64_other _ _ _ (by omega) (by omega) (by omega), load64_store64]
  · intro j small notFirst notSecond
    rw [load64_other _ _ _ notSecond (by omega) (by omega), load64_other _ _ _ notFirst (by omega) (by omega)]

/-- Bytes outside the 272 from `base` on. -/
def OutsideFrame (base a : BitVec 64) : Prop := 272 ≤ (a - base).toNat

theorem stp_outside (m : Cpu) (a b : Reg) (k : Nat) (inside : k < 17) (at_ : BitVec 64)
    (outside : OutsideFrame m.sp at_) : (execInstr m (.stp a b (16 * k))).memory at_ = m.memory at_ := by
  simp only [execInstr, pair_first, pair_second]
  rw [store64_frame _ _ _ _ (by omega) outside, store64_frame _ _ _ _ (by omega) outside]

/-- The first `2n` registers lie in the frame, and nothing else has changed. -/
structure Spilled (m r : Cpu) (n : Nat) : Prop where
  x : r.x = m.x
  sp : r.sp = m.sp
  elr : r.elr = m.elr
  spsr : r.spsr = m.spsr
  words : ∀ j : Fin 31, j.val < 2 * n → frameWord r m.sp j = m.x j
  outside : ∀ a, OutsideFrame m.sp a → r.memory a = m.memory a

theorem spill_pairs (m : Cpu) (n : Nat) (inside : n ≤ 15) :
    Spilled m (execute ((List.range n).map (pair .stp)) m) n := by
  induction n with
  | zero =>
      refine ⟨rfl, rfl, rfl, rfl, fun j below => ?_, fun _ _ => rfl⟩
      exact absurd below (Nat.not_lt_zero _)
  | succ n ih =>
      have before := ih (Nat.le_of_succ_le inside)
      rw [List.range_succ, List.map_append, execute_append]
      generalize execute ((List.range n).map (pair .stp)) m = r at before
      obtain ⟨even, odd, others⟩ := stp_word r (.x (Fin.ofNat 31 (2 * n))) (.x (Fin.ofNat 31 (2 * n + 1))) n
        (by omega)
      have apart := stp_outside r (.x (Fin.ofNat 31 (2 * n))) (.x (Fin.ofNat 31 (2 * n + 1))) n (by omega)
      rw [before.sp] at even odd others apart
      refine ⟨before.x, before.sp, before.elr, before.spsr, fun j below => ?_, fun a outside => ?_⟩
      · rw [Cpu.get, before.x] at even odd
        by_cases first : j.val = 2 * n
        · have same : Fin.ofNat 31 (2 * n) = j := Fin.ext (by simp only [Fin.ofNat]; omega)
          rw [first, ← same]
          exact even
        · by_cases second : j.val = 2 * n + 1
          · have same : Fin.ofNat 31 (2 * n + 1) = j := Fin.ext (by simp only [Fin.ofNat]; omega)
            rw [second, ← same]
            exact odd
          · exact (others j (by omega) first second).trans (before.words j (by omega))
      · exact (apart a outside).trans (before.outside a outside)

/-- What `save_registers` leaves behind. -/
structure Saved (m r : Cpu) : Prop where
  sp : r.sp = m.sp - 272
  x : ∀ j : Fin 31, frameWord r r.sp j = m.x j
  elr : frameWord r r.sp 32 = m.elr
  spsr : frameWord r r.sp 33 = m.spsr
  outside : ∀ a, OutsideFrame r.sp a → r.memory a = m.memory a

theorem saveRegisters_spec (m : Cpu) : Saved m (execute saveRegisters m) := by
  have spilled := spill_pairs (execute [.subSp 272] m) 15 (Nat.le_refl 15)
  rw [saveRegisters_pairs, execute_append, execute_append]
  generalize execute ((List.range 15).map (pair .stp)) (execute [.subSp 272] m) = r at spilled
  obtain ⟨link, _, kept⟩ := stp_word r (.x 30) .xzr 15 (by decide)
  have linkOutside := stp_outside r (.x 30) .xzr 15 (by decide)
  let s := execInstr (execInstr (execInstr r (.stp (.x 30) .xzr 240)) (.mrs (.x 0) .elrEl1)) (.mrs (.x 1) .spsrEl1)
  obtain ⟨elr, spsr, later⟩ := stp_word s (.x 0) (.x 1) 16 (by decide)
  have sysOutside := stp_outside s (.x 0) (.x 1) 16 (by decide)
  have base : s.sp = m.sp - 272 := spilled.sp
  constructor
  · exact base
  · intro j
    have fits := j.isLt
    refine (later j (by omega) (by omega) (by omega)).trans ?_
    by_cases last : j.val = 30
    · have same : j = 30 := Fin.ext last
      rw [same]
      exact link.trans (congrFun spilled.x 30)
    · refine (kept j (by omega) (by omega) (by omega)).trans ?_
      rw [spilled.sp]
      exact spilled.words j (by omega)
  · exact elr.trans spilled.elr
  · exact spsr.trans spilled.spsr
  · intro a outside
    refine (sysOutside a outside).trans ((linkOutside a outside).trans (spilled.outside a ?_))
    rw [← spilled.sp]
    exact outside

theorem ldp_x (m : Cpu) (a b : Fin 31) (k : Nat) :
    (execInstr m (.ldp (.x a) (.x b) (16 * k))).x =
      Function.update (Function.update m.x a (frameWord m m.sp (2 * k))) b (frameWord m m.sp (2 * k + 1)) := by
  simp only [execInstr, Cpu.set, frameWord, pair_first, pair_second]

/-- The first `n` pairs are loaded back, the last one first. -/
structure Unspilled (m r : Cpu) (n : Nat) : Prop where
  x : ∀ j : Fin 31, r.x j = if j.val < 2 * n then frameWord m m.sp j else m.x j
  sp : r.sp = m.sp
  elr : r.elr = m.elr
  spsr : r.spsr = m.spsr
  memory : r.memory = m.memory

theorem unspill_pairs (m : Cpu) (n : Nat) (inside : n ≤ 15) :
    Unspilled m (execute ((List.range n).map (pair .ldp)).reverse m) n := by
  induction n generalizing m with
  | zero =>
      refine ⟨fun j => ?_, rfl, rfl, rfl, rfl⟩
      rw [if_neg (Nat.not_lt_zero _)]
      rfl
  | succ n ih =>
      rw [List.range_succ, List.map_append, List.reverse_append, execute_append]
      have later := ih (execInstr m (pair .ldp n)) (Nat.le_of_succ_le inside)
      refine ⟨fun j => ?_, later.sp, later.elr, later.spsr, later.memory⟩
      have words : frameWord (execInstr m (pair .ldp n)) (execInstr m (pair .ldp n)).sp j = frameWord m m.sp j := rfl
      refine (later.x j).trans ?_
      rw [words, pair, ldp_x]
      by_cases lower : j.val < 2 * n
      · rw [if_pos lower, if_pos (by omega)]
      · rw [if_neg lower]
        by_cases second : j = Fin.ofNat 31 (2 * n + 1)
        · have value : j.val = 2 * n + 1 := by
            rw [second]
            simp only [Fin.ofNat]
            omega
          rw [← second, Function.update_self, if_pos (by omega), value]
        · rw [Function.update_of_ne second]
          by_cases first : j = Fin.ofNat 31 (2 * n)
          · have value : j.val = 2 * n := by
              rw [first]
              simp only [Fin.ofNat]
              omega
            rw [← first, Function.update_self, if_pos (by omega), value]
          · have past : ¬ j.val < 2 * (n + 1) := by
              intro below
              rcases Nat.lt_or_eq_of_le (Nat.le_of_lt_succ (show j.val < 2 * n + 1 + 1 by omega)) with less | same
              · exact first (Fin.ext (by simp only [Fin.ofNat]; omega))
              · exact second (Fin.ext (by simp only [Fin.ofNat]; omega))
            rw [Function.update_of_ne first, if_neg past]

/-- `load_registers` reads the whole frame back and writes no memory. -/
structure Loaded (m r : Cpu) : Prop where
  x : ∀ j : Fin 31, r.x j = frameWord m m.sp j
  sp : r.sp = m.sp + 272
  elr : r.elr = frameWord m m.sp 32
  spsr : r.spsr = frameWord m m.sp 33
  memory : r.memory = m.memory

theorem execute_addSp (m : Cpu) (imm : Nat) :
    execute [.addSp imm] m = { m with sp := m.sp + BitVec.ofNat 64 imm } := rfl

theorem loadSystem_spec (m : Cpu) :
    (execute loadSystem m).sp = m.sp ∧ (execute loadSystem m).memory = m.memory ∧
    (execute loadSystem m).elr = frameWord m m.sp 32 ∧ (execute loadSystem m).spsr = frameWord m m.sp 33 ∧
    (execute loadSystem m).x 30 = frameWord m m.sp 30 := by
  have elr : m.sp + BitVec.ofNat 64 256 = wordAt m.sp 32 := rfl
  have spsr : m.sp + BitVec.ofNat 64 (256 + 8) = wordAt m.sp 33 := rfl
  have link : m.sp + BitVec.ofNat 64 240 = wordAt m.sp 30 := rfl
  simp only [execute, loadSystem, List.foldl_cons, List.foldl_nil, execInstr, Cpu.set, Cpu.setSys, Cpu.get,
    elr, spsr, link, frameWord, Function.update_self, true_and, and_true]
  exact Function.update_of_ne (by decide) _ _

theorem loadRegisters_spec (m : Cpu) : Loaded m (execute loadRegisters m) := by
  obtain ⟨sp, memory, elr, spsr, link⟩ := loadSystem_spec m
  rw [loadRegisters_pairs, execute_append, execute_append]
  generalize execute loadSystem m = s at sp memory elr spsr link
  have words : ∀ j, frameWord s s.sp j = frameWord m m.sp j := fun j => by
    rw [frameWord, frameWord, memory, sp]
  have unspilled := unspill_pairs s 15 (Nat.le_refl 15)
  generalize execute ((List.range 15).map (pair .ldp)).reverse s = r at unspilled
  rw [execute_addSp]
  constructor
  · intro j
    refine (unspilled.x j).trans ?_
    by_cases lower : j.val < 2 * 15
    · rw [if_pos lower, words]
    · have last : j = 30 := Fin.ext (show j.val = 30 by omega)
      rw [if_neg lower, last]
      exact link
  · rw [unspilled.sp, sp]
    rfl
  · exact unspilled.elr.trans elr
  · exact unspilled.spsr.trans spsr
  · exact unspilled.memory.trans memory

/-- The words of the frame survive a handler that leaves its bytes alone. -/
theorem frameWord_returned {before after : Cpu} (returned : ReturnsFrame before after) (j : Nat)
    (inside : j < 34) : frameWord after after.sp j = frameWord before before.sp j := by
  rw [frameWord, frameWord, returned.sp]
  apply load64_congr
  intro i small
  rw [wordAt_add]
  exact returned.frame _ (by omega)

theorem branchLink_sp (ret : BitVec 64) (m : Cpu) : (branchLink ret m).sp = m.sp := rfl

theorem branchLink_word (ret : BitVec 64) (m : Cpu) (base : BitVec 64) (j : Nat) :
    frameWord (branchLink ret m) base j = frameWord m base j := rfl

theorem stub_restores {m after : Cpu} {ret : BitVec 64} (returned : ReturnsFrame (handlerEntry ret m) after) :
    Restored m (execute loadRegisters after) := by
  have saved := saveRegisters_spec m
  have loaded := loadRegisters_spec after
  have same : ∀ j < 34, frameWord after after.sp j =
      frameWord (execute saveRegisters m) (execute saveRegisters m).sp j := by
    intro j inside
    rw [frameWord_returned returned j inside, handlerEntry, branchLink_word, branchLink_sp]
  constructor
  · funext j
    have fits := j.isLt
    exact (loaded.x j).trans ((same j (by omega)).trans (saved.x j))
  · rw [loaded.sp, returned.sp, handlerEntry, branchLink_sp, saved.sp, BitVec.sub_add_cancel]
  · exact loaded.elr.trans ((same 32 (by decide)).trans saved.elr)
  · exact loaded.spsr.trans ((same 33 (by decide)).trans saved.spsr)

/-- Interrupted code gets back every register it had, whatever the handler did
to them, and the macros themselves only write the frame below its stack. -/
theorem interrupts_transparent (m : Cpu) (ret : BitVec 64)
    (handleSynchronousInterrupts handleInterruptRequests : Cpu → Cpu)
    (sync : ReturnsFrame (handlerEntry ret m) (handleSynchronousInterrupts (handlerEntry ret m)))
    (irq : ReturnsFrame (handlerEntry ret m) (handleInterruptRequests (handlerEntry ret m))) :
    Restored m (syncHandler handleSynchronousInterrupts ret m) ∧
    Restored m (irqHandler handleInterruptRequests ret m) ∧
    (∀ a, OutsideFrame (m.sp - 272) a → (execute saveRegisters m).memory a = m.memory a) ∧
    ∀ after : Cpu, (execute loadRegisters after).memory = after.memory := by
  have saved := saveRegisters_spec m
  refine ⟨stub_restores sync, stub_restores irq, fun a outside => ?_, fun after => ?_⟩
  · apply saved.outside
    rw [saved.sp]
    exact outside
  · exact (loadRegisters_spec after).memory

def ruinRegisters (m : Cpu) : Cpu := { m with x := fun _ => 99, elr := 1, spsr := 2 }

theorem ruinRegisters_returns (m : Cpu) : ReturnsFrame m (ruinRegisters m) :=
  ⟨rfl, fun _ _ => rfl⟩

/-- A handler that ruins every register, called with a stack that wraps around. -/
theorem interrupts_transparent_ruined :
    let m : Cpu := ⟨fun n => BitVec.ofNat 64 n, 100, 7, 8, fun _ => 0⟩
    Restored m (syncHandler ruinRegisters 5 m) ∧ Restored m (irqHandler ruinRegisters 5 m) ∧
      (∀ a, OutsideFrame (m.sp - 272) a → (execute saveRegisters m).memory a = m.memory a) ∧
      ∀ after : Cpu, (execute loadRegisters after).memory = after.memory :=
  interrupts_transparent ⟨fun n => BitVec.ofNat 64 n, 100, 7, 8, fun _ => 0⟩ 5 ruinRegisters ruinRegisters
    (ruinRegisters_returns _) (ruinRegisters_returns _)

section Table

/-- What an entry branches to. -/
inductive VectorEntry where
  | self
  | syncHandler
  | irqHandler
  deriving DecidableEq, Repr

/-- `vector_table`: for each band the synchronous exceptions, IRQs, FIQs and SErrors. -/
def vectorTable : List VectorEntry := [
  -- current EL with SP_EL0
  .self, .self, .self, .self,
  -- current EL with SP_ELx
  .syncHandler, .irqHandler, .self, .self,
  -- lower EL using AArch64
  .self, .self, .self, .self,
  -- lower EL using AArch32
  .self, .self, .self, .self]

/-- The band that PSTATE.M picks for an exception taken to EL1: bit 4 is set in
AArch32, bits 3 and 2 are the level, and bit 0 says that it runs on its own stack. -/
def vectorBand (pstate : BitVec 64) : Nat :=
  if pstate.getLsbD 4 then 3
  else if pstate.extractLsb' 2 2 = 0 then 2
  else if pstate.getLsbD 0 then 1
  else 0

def synchronousEntry (pstate : BitVec 64) : VectorEntry := vectorTable.getD (4 * vectorBand pstate) .self

def irqEntry (pstate : BitVec 64) : VectorEntry := vectorTable.getD (4 * vectorBand pstate + 1) .self

/-- Where the kernel runs. -/
def El1h (pstate : BitVec 64) : Prop := vectorBand pstate = 1

instance (pstate : BitVec 64) : Decidable (El1h pstate) := inferInstanceAs (Decidable (_ = _))

theorem vectorBand_lt (pstate : BitVec 64) : vectorBand pstate < 4 := by
  rw [vectorBand]
  split
  · decide
  · split
    · decide
    · split <;> decide

/-- Only EL1h has handlers. -/
theorem table_bands : ∀ band < 4, vectorTable.getD (4 * band) .self = (if band = 1 then .syncHandler else .self) ∧
    vectorTable.getD (4 * band + 1) .self = if band = 1 then .irqHandler else .self := by
  decide

theorem synchronousEntry_eq (pstate : BitVec 64) :
    synchronousEntry pstate = if El1h pstate then .syncHandler else .self :=
  (table_bands _ (vectorBand_lt pstate)).1

theorem irqEntry_eq (pstate : BitVec 64) : irqEntry pstate = if El1h pstate then .irqHandler else .self :=
  (table_bands _ (vectorBand_lt pstate)).2

end Table

end KehindeKernel
