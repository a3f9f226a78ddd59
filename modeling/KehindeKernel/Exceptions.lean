import KehindeKernel.Lib.Unseen
import KehindeKernel.Uart
import KehindeKernel.VectorTable

/-!
Synchronous exceptions: `handle_synchronous_interrupts`, which is the same on both
boards, behind the entry for the level that the exception comes from. The kernel runs
at EL1h, whose entries lead to the stubs: there the fatal classes dump what happened; a
system call is announced; every other class falls through the switch, and the `eret`
goes back to where the exception came from. Interrupts that are taken anywhere in
between are not seen by code that leaves the handlers' bytes alone. Every other entry
branches to itself, so the cases for a lower level print nothing.
-/

namespace KehindeKernel

open Outcome Numeral

/-- ESR_EL1[31:26] -/
def exceptionClass (esr : UInt64) : Nat := ((esr >>> 26) &&& 0x3F).toNat

/-- The status code in the syndrome, ISS[5:0]. -/
def faultStatus (esr : UInt64) : UInt64 := (esr &&& 0x1FFFFFF) &&& 0x3F

/-- The cases that end in `while (true) {}`: what they print first, and whether they
print FAR_EL1 again behind the status. -/
def fatalCase : Nat → Option (List UInt8 × Bool)
  | 0x20 => some (ascii "Instruction Abort from a lower EL.", false)
  | 0x21 => some (ascii "Instruction Abort from the same EL.\n" ++
      ascii "There is likely no VA to PA mapping, or you did it wrong.\n", true)
  | 0x24 => some (ascii "Data Abort from a lower EL \n", true)
  | 0x25 => some (ascii "Data Abort from the same EL \n" ++
      ascii "Kernel did a load/store to an unmapped or wrong-perm VA.\n", false)
  | 0x0E => some (ascii "Illegal execution state \n", false)
  | _ => none

def systemCallText : List UInt8 := ascii "SVC from AArch64: System call. \n"

section Handler

variable (valueBuffer : Vector UInt64 20)

def faultDump (head : List UInt8) (again : Bool) (far dfsc : UInt64) : Run (List UInt8) := do
  let sent ← uartPutHex 21 valueBuffer far (head ++ ascii "FAR_EL1: ")
  let sent ← uartPutHex 21 valueBuffer dfsc (sent ++ ascii "\nDFSC: ")
  if again then uartPutHex 21 valueBuffer far sent else pure sent

/-- `handle_synchronous_interrupts`: what it sends, and whether it halts. -/
def handleSynchronousInterrupts (esr far : UInt64) : Run (List UInt8 × Bool) :=
  match fatalCase (exceptionClass esr) with
  | some (head, again) => do
      let sent ← faultDump valueBuffer head again far (faultStatus esr)
      pure (sent, true)
  | none =>
      if exceptionClass esr = 0x15 then pure (systemCallText, false) else pure ([], false)

end Handler

section Dumps

def fatalClasses : List Nat := [0x20, 0x21, 0x24, 0x25, 0x0E]

/-- What the dumps of a class begin with. -/
def dumpHead (ec : Nat) : List UInt8 := ((fatalCase ec).getD ([], false)).1 ++ ascii "FAR_EL1: "

def dumpText (ec far dfsc : Nat) : List UInt8 :=
  dumpHead ec ++ (hexText far ++ (ascii "\nDFSC: " ++ (hexText dfsc ++
    if ((fatalCase ec).getD ([], false)).2 then hexText far else [])))

theorem mem_fatal (ec : Nat) : ec ∈ fatalClasses ↔ (fatalCase ec).isSome := by
  constructor
  · simp only [fatalClasses, List.mem_cons, List.not_mem_nil, or_false]
    rintro (rfl | rfl | rfl | rfl | rfl) <;> rfl
  · intro known
    simp only [fatalCase] at known
    split at known
    all_goals first | decide | contradiction

end Dumps

section Running

/-- A core between two instructions. -/
structure Running where
  cpu : Cpu
  pc : BitVec 64
  pstate : BitVec 64

/-- What the running code sees, memory apart. -/
structure View where
  x : Fin 31 → BitVec 64
  sp : BitVec 64
  pc : BitVec 64
  pstate : BitVec 64

def Running.view (r : Running) : View := ⟨r.cpu.x, r.cpu.sp, r.pc, r.pstate⟩

/-- Taking an exception to EL1, with `back` as the preferred return address. -/
def Running.enter (r : Running) (back : BitVec 64) : Cpu := { r.cpu with elr := back, spsr := r.pstate }

/-- `eret` -/
def Cpu.eret (m : Cpu) : Running := ⟨m, m.elr, m.spsr⟩

/-- A system call returns behind its instruction, every other exception to it. -/
def preferredReturn (ec : Nat) (pc : BitVec 64) : BitVec 64 := if ec = 0x15 then pc + 4 else pc

/-- PSTATE.I keeps interrupts out. -/
def Running.masked (r : Running) : Bool := r.pstate.getLsbD 7

/-- Code that runs under the vectors: what an instruction does, the syndrome and the
fault address of one that cannot be done, and the bytes that still matter to the code. -/
structure Program where
  step : Running → Running
  raises : Running → Option (UInt64 × UInt64)
  live : View → BitVec 64 → Prop

/-- The same to the code. -/
structure Program.Alike (p : Program) (r s : Running) : Prop where
  view : r.view = s.view
  memory : ∀ a, p.live r.view a → r.cpu.memory a = s.cpu.memory a

/-- The aborts that are taken from a lower level. -/
def lowerAborts : List Nat := [0x20, 0x24]

/-- Nothing below the stack pointer matters to the code, and what does not matter
changes nothing that it does. Its own instructions stay at EL1h, and the aborts are
reported for the level that they come from. -/
structure Program.Sound (p : Program) : Prop where
  below : ∀ v a, p.live v a → OutsideFrame (v.sp - 272) a
  step : ∀ r s, p.Alike r s → p.raises r = none → p.Alike (p.step r) (p.step s)
  raises : ∀ r s, p.Alike r s → p.raises r = p.raises s
  behind : ∀ (r : Running) esr far, p.raises r = some (esr, far) → exceptionClass esr = 0x15 →
    ∀ a, p.live { r.view with pc := r.pc + 4 } a → p.live r.view a
  level : ∀ r, p.raises r = none → El1h r.pstate → El1h (p.step r).pstate
  aborts : ∀ (r : Running) esr far, p.raises r = some (esr, far) → exceptionClass esr ∈ lowerAborts →
    2 ≤ vectorBand r.pstate

/-- The machine code of the two handlers: of the first for each syndrome and fault
address, of the second for each interrupt that is taken. -/
structure Handlers where
  synchronous : UInt64 → UInt64 → Cpu → Cpu
  requests : Nat → Cpu → Cpu
  syncLink : BitVec 64
  irqLink : BitVec 64

/-- A handler returns, and writes nothing that matters to the code. -/
structure Program.Spares (p : Program) (body : Cpu → Cpu) : Prop where
  frame : ∀ m, ReturnsFrame m (body m)
  live : ∀ m (v : View) a, v.sp = m.sp + 272 → p.live v a → (body m).memory a = m.memory a

structure Handlers.Quiet (h : Handlers) (p : Program) : Prop where
  synchronous : ∀ esr far, p.Spares (h.synchronous esr far)
  requests : ∀ n, p.Spares (h.requests n)

inductive Happening where
  | instruction
  | interrupt (n : Nat)
  deriving DecidableEq, Repr

def Happening.isInterrupt : Happening → Bool
  | .instruction => false
  | .interrupt _ => true

/-- What the handlers have sent, and the core unless it is stuck, in `while (true) {}` or
in an entry that branches to itself. Either way it takes no interrupts any more. -/
structure Progress where
  sent : List UInt8
  core : Option Running

variable (p : Program) (h : Handlers) (valueBuffer : Vector UInt64 20)

/-- An instruction that raises an exception, from its entry in the vector table to the
`eret` of `sync_handler`. -/
def synchronousRound (r : Running) (esr far : UInt64) : Run (List UInt8 × Option Running) :=
  match synchronousEntry r.pstate with
  | .syncHandler => do
      let (text, halts) ← handleSynchronousInterrupts valueBuffer esr far
      let entry := r.enter (preferredReturn (exceptionClass esr) r.pc)
      pure (text, if halts then none else some (syncHandler (h.synchronous esr far) h.syncLink entry).eret)
  | _ => pure ([], none)

/-- An interrupt that is taken, from its entry in the vector table to the `eret` of
`irq_handler`. -/
def interruptRound (n : Nat) (r : Running) : Option Running :=
  match irqEntry r.pstate with
  | .irqHandler => some (irqHandler (h.requests n) h.irqLink (r.enter r.pc)).eret
  | _ => none

/-- One thing that may happen next. An interrupt that is masked stays pending. -/
def happen (w : Progress) : Happening → Run Progress
  | .instruction =>
      match w.core with
      | none => pure w
      | some r =>
          match p.raises r with
          | none => pure { w with core := some (p.step r) }
          | some (esr, far) => do
              let (text, core) ← synchronousRound h valueBuffer r esr far
              pure ⟨w.sent ++ text, core⟩
  | .interrupt n =>
      match w.core with
      | none => pure w
      | some r =>
          if r.masked then pure w
          else pure { w with core := interruptRound h n r }

/-- The same to code that runs at EL1h. -/
structure Program.AlikeAtEl1 (r s : Running) : Prop where
  alike : p.Alike r s
  level : El1h r.pstate

structure Program.SameProgress (v w : Progress) : Prop where
  sent : v.sent = w.sent
  core : Option.Rel p.AlikeAtEl1 v.core w.core

variable {p h}

theorem Program.Alike.refl (r : Running) : p.Alike r r := ⟨rfl, fun _ _ => rfl⟩

theorem Program.Alike.trans {r s t : Running} (first : p.Alike r s) (second : p.Alike s t) : p.Alike r t where
  view := first.view.trans second.view
  memory := fun a lives => (first.memory a lives).trans (second.memory a (first.view ▸ lives))

/-- Behind its stub a handler leaves the core as it was, at the return address. -/
theorem stub_spares {body : Cpu → Cpu} (spares : p.Spares body)
    (below : ∀ v a, p.live v a → OutsideFrame (v.sp - 272) a) (link back : BitVec 64) (r : Running) (after : Running)
    (stub : after = (execute loadRegisters (body (handlerEntry link (r.enter back)))).eret) :
    after.view = { r.view with pc := back } ∧ ∀ a, p.live r.view a → after.cpu.memory a = r.cpu.memory a := by
  subst stub
  have saved := saveRegisters_spec (r.enter back)
  have restored := stub_restores (spares.frame (handlerEntry link (r.enter back)))
  constructor
  · simp only [Running.view, Cpu.eret, restored.x, restored.sp, restored.elr, restored.spsr]
    rfl
  · intro a lives
    have entry : r.view.sp = (handlerEntry link (r.enter back)).sp + 272 := by
      rw [handlerEntry, branchLink_sp, saved.sp, BitVec.sub_add_cancel]
      rfl
    have loaded := (loadRegisters_spec (body (handlerEntry link (r.enter back)))).memory
    have outside : OutsideFrame (execute saveRegisters (r.enter back)).sp a := by
      rw [saved.sp]
      exact below r.view a lives
    calc (execute loadRegisters (body (handlerEntry link (r.enter back)))).memory a
        = (body (handlerEntry link (r.enter back))).memory a := by rw [loaded]
      _ = (execute saveRegisters (r.enter back)).memory a := spares.live _ r.view a entry lives
      _ = r.cpu.memory a := saved.outside a outside

theorem fatal_sends {esr : UInt64} (far : UInt64) (fatal : exceptionClass esr ∈ fatalClasses) :
    handleSynchronousInterrupts valueBuffer esr far =
      .ok (dumpText (exceptionClass esr) far.toNat (faultStatus esr).toNat, true) := by
  obtain ⟨⟨head, again⟩, known⟩ := Option.isSome_iff_exists.mp ((mem_fatal _).mp fatal)
  have hex : ∀ val sent, uartPutHex 21 valueBuffer val sent = .ok (sent ++ hexText val.toNat) :=
    fun val sent => uartPutHex_eq valueBuffer val sent 0
  simp only [handleSynchronousInterrupts, known, faultDump, hex, ok_bind, dumpText, dumpHead, Option.getD_some]
  cases again with
  | true => simp only [if_true, List.append_assoc, ok_bind, pure_ok]
  | false => simp only [Bool.false_eq_true, if_false, List.append_assoc, List.append_nil, ok_bind, pure_ok]

theorem not_fatal {esr : UInt64} (mild : exceptionClass esr ∉ fatalClasses) :
    fatalCase (exceptionClass esr) = none := by
  rw [← Option.not_isSome_iff_eq_none, ← mem_fatal]
  exact mild

theorem call_sends {esr : UInt64} (far : UInt64) (call : exceptionClass esr = 0x15) :
    handleSynchronousInterrupts valueBuffer esr far = .ok (systemCallText, false) := by
  have mild : fatalCase (exceptionClass esr) = none := by rw [call]; rfl
  simp only [handleSynchronousInterrupts, mild, if_pos call, pure_ok]

theorem other_sends {esr : UInt64} (far : UInt64) (mild : exceptionClass esr ∉ fatalClasses)
    (silent : exceptionClass esr ≠ 0x15) : handleSynchronousInterrupts valueBuffer esr far = .ok ([], false) := by
  simp only [handleSynchronousInterrupts, not_fatal mild, if_neg silent, pure_ok]

theorem handler_ends (esr far : UInt64) : ∃ text halts,
    handleSynchronousInterrupts valueBuffer esr far = .ok (text, halts) := by
  by_cases fatal : exceptionClass esr ∈ fatalClasses
  · exact ⟨_, _, fatal_sends valueBuffer far fatal⟩
  · by_cases call : exceptionClass esr = 0x15
    · exact ⟨_, _, call_sends valueBuffer far call⟩
    · exact ⟨_, _, other_sends valueBuffer far fatal call⟩

/-- What matters where the handler returns to did so at the exception. -/
theorem live_behind (sound : p.Sound) {r : Running} {esr far : UInt64} (raised : p.raises r = some (esr, far))
    {a : BitVec 64} (lives : p.live { r.view with pc := preferredReturn (exceptionClass esr) r.pc } a) :
    p.live r.view a := by
  rw [preferredReturn] at lives
  split at lives
  next call => exact sound.behind r esr far raised call a lives
  next => exact lives

/-- What the code sees after a handler that returns. -/
theorem returns_alike (sound : p.Sound) (quiet : h.Quiet p) {r : Running} {esr far : UInt64}
    (raised : p.raises r = some (esr, far)) {after : Running}
    (stub : after = (syncHandler (h.synchronous esr far) h.syncLink
      (r.enter (preferredReturn (exceptionClass esr) r.pc))).eret) :
    after.view = { r.view with pc := preferredReturn (exceptionClass esr) r.pc } ∧
      ∀ a, p.live after.view a → after.cpu.memory a = r.cpu.memory a := by
  obtain ⟨view, memory⟩ := stub_spares (quiet.synchronous esr far) sound.below _ _ r after stub
  refine ⟨view, fun a lives => memory a ?_⟩
  rw [view] at lives
  exact live_behind sound raised lives

theorem Program.Alike.pstate {r s : Running} (same : p.Alike r s) : r.pstate = s.pstate :=
  congrArg View.pstate same.view

theorem Program.Alike.level {r s : Running} (same : p.Alike r s) (level : El1h s.pstate) : El1h r.pstate := by
  rw [same.pstate]
  exact level

theorem interrupt_alike (sound : p.Sound) (quiet : h.Quiet p) (n : Nat) {r : Running} (level : El1h r.pstate) :
    ∃ after, interruptRound h n r = some after ∧ p.Alike after r := by
  rw [interruptRound, irqEntry_eq, if_pos level]
  refine ⟨_, rfl, ?_⟩
  obtain ⟨view, memory⟩ := stub_spares (quiet.requests n) sound.below h.irqLink r.pc r _ rfl
  refine ⟨view, fun a lives => memory a ?_⟩
  rw [irqHandler, view] at lives
  exact lives

theorem synchronousRound_el1h {r : Running} (level : El1h r.pstate) {esr far : UInt64} {text : List UInt8}
    {halts : Bool} (sends : handleSynchronousInterrupts valueBuffer esr far = .ok (text, halts)) :
    synchronousRound h valueBuffer r esr far = .ok (text, if halts then none else
      some (syncHandler (h.synchronous esr far) h.syncLink
        (r.enter (preferredReturn (exceptionClass esr) r.pc))).eret) := by
  rw [synchronousRound, synchronousEntry_eq, if_pos level, sends]
  rfl

/-- Two cores that are the same to the code raise the same, and are the same behind it. -/
theorem synchronous_alike (sound : p.Sound) (quiet : h.Quiet p) {r s : Running} {esr far : UInt64}
    (both : p.AlikeAtEl1 r s) (raised : p.raises r = some (esr, far)) :
    ∃ text core core', synchronousRound h valueBuffer r esr far = .ok (text, core) ∧
      synchronousRound h valueBuffer s esr far = .ok (text, core') ∧ Option.Rel p.AlikeAtEl1 core core' := by
  obtain ⟨text, halts, sends⟩ := handler_ends valueBuffer esr far
  obtain ⟨same, level⟩ := both
  have level' : El1h s.pstate := same.pstate ▸ level
  refine ⟨text, _, _, synchronousRound_el1h valueBuffer level sends, synchronousRound_el1h valueBuffer level' sends, ?_⟩
  cases halts with
  | true => exact .none
  | false =>
      obtain ⟨view, memory⟩ := returns_alike sound quiet raised rfl
      have raised' := (sound.raises r s same).symm.trans raised
      obtain ⟨view', memory'⟩ := returns_alike sound quiet raised' rfl
      have pc : r.pc = s.pc := congrArg View.pc same.view
      have meets : { r.view with pc := preferredReturn (exceptionClass esr) r.pc } =
          { s.view with pc := preferredReturn (exceptionClass esr) s.pc } := by
        rw [same.view, pc]
      have views := view.trans (meets.trans view'.symm)
      have stays : (syncHandler (h.synchronous esr far) h.syncLink
          (r.enter (preferredReturn (exceptionClass esr) r.pc))).eret.pstate = r.pstate := congrArg View.pstate view
      refine .some ⟨⟨views, fun a lives => ?_⟩, stays.symm ▸ level⟩
      have before : p.live r.view a := by
        rw [view] at lives
        exact live_behind sound raised lives
      have after := lives
      rw [views] at after
      exact (memory a lives).trans ((same.memory a before).trans (memory' a after).symm)

theorem happen_hides (sound : p.Sound) (quiet : h.Quiet p) :
    Unseen.Hides (happen p h valueBuffer) Happening.isInterrupt p.SameProgress where
  unseen := by
    rintro ⟨sent, core⟩ ⟨sent', core'⟩ (_ | n) secret ⟨rfl, cores⟩
    · contradiction
    · cases cores with
      | none => exact ⟨_, rfl, rfl, .none⟩
      | @some r s both =>
          simp only [happen]
          by_cases masked : r.masked
          · rw [if_pos masked]
            exact ⟨_, rfl, rfl, .some both⟩
          · obtain ⟨after, taken, alike⟩ := interrupt_alike sound quiet n both.level
            rw [if_neg masked, taken]
            exact ⟨_, rfl, rfl, .some ⟨alike.trans both.alike, alike.level both.level⟩⟩
  lockstep := by
    rintro ⟨sent, core⟩ ⟨sent', core'⟩ (_ | n) open_ ⟨rfl, cores⟩
    · cases cores with
      | none => exact ⟨_, _, rfl, rfl, rfl, .none⟩
      | @some r s both =>
          simp only [happen, ← sound.raises r s both.alike]
          cases raised : p.raises r with
          | none =>
              exact ⟨_, _, rfl, rfl, rfl, .some ⟨sound.step r s both.alike raised, sound.level r raised both.level⟩⟩
          | some event =>
              obtain ⟨esr, far⟩ := event
              obtain ⟨text, after, after', first, second, same⟩ :=
                synchronous_alike valueBuffer sound quiet both raised
              simp only [first, second, ok_bind]
              exact ⟨_, _, rfl, rfl, rfl, same⟩
    · contradiction

/-- Counts in every register, and raises three exceptions on its way, of which the last
is a write to an unmapped address. -/
def countingProgram : Program where
  step r := { r with cpu := { r.cpu with x := fun n => r.cpu.x n + 1 }, pc := r.pc + 4 }
  raises r :=
    if r.pc = 8 then some (0x56000000, 0)
    else if r.pc = 16 then some (0xF2000000, 0)
    else if r.pc = 24 then some (if 2 ≤ vectorBand r.pstate then 0x92000045 else 0x96000045, 0xDEAD0000)
    else none
  live v a := OutsideFrame (v.sp - 272) a

def ruiningHandlers : Handlers where
  synchronous _ _ := ruinRegisters
  requests _ := ruinRegisters
  syncLink := 5
  irqLink := 6

/-- At EL1h, with interrupts open. -/
def countingFrom (pc : BitVec 64) : Running := ⟨⟨fun n => BitVec.ofNat 64 n, 100, 7, 8, fun _ => 0⟩, pc, 5⟩

theorem countingProgram_sound : countingProgram.Sound where
  below := fun _ _ lives => lives
  step := fun r s same _ => by
    obtain ⟨view, memory⟩ := same
    simp only [Running.view, View.mk.injEq] at view
    obtain ⟨x, sp, pc, pstate⟩ := view
    refine ⟨?_, memory⟩
    simp only [countingProgram, Running.view, x, sp, pc, pstate]
  raises := fun r s same => by
    have pc : r.pc = s.pc := congrArg View.pc same.view
    simp only [countingProgram, pc, same.pstate]
  behind := fun _ _ _ _ _ _ lives => lives
  level := fun _ _ level => level
  aborts := fun r esr far raised lower => by
    simp only [countingProgram] at raised
    split at raised
    · cases raised
      exact absurd lower (by decide)
    · split at raised
      · cases raised
        exact absurd lower (by decide)
      · split at raised
        · by_cases band : 2 ≤ vectorBand r.pstate
          · exact band
          · rw [if_neg band] at raised
            cases raised
            exact absurd lower (by decide)
        · contradiction

theorem ruiningHandlers_quiet : ruiningHandlers.Quiet countingProgram where
  synchronous := fun _ _ => ⟨ruinRegisters_returns, fun _ _ _ _ _ => rfl⟩
  requests := fun _ => ⟨ruinRegisters_returns, fun _ _ _ _ _ => rfl⟩

/-- Wherever interrupts are taken, the kernel's code, what its own exceptions print and
whether one of them halts the core are as if none had been. -/
theorem interrupts_unseen (sound : p.Sound) (quiet : h.Quiet p) {r : Running} (level : El1h r.pstate)
    (schedule : List Happening) :
    ∃ v w, Unseen.run (happen p h valueBuffer) ⟨[], some r⟩ schedule = .ok v ∧
      Unseen.run (happen p h valueBuffer) ⟨[], some r⟩ (schedule.filter fun e => !e.isInterrupt) = .ok w ∧
      v.sent = w.sent ∧ Option.Rel p.AlikeAtEl1 v.core w.core := by
  obtain ⟨v, w, runs, plain, same⟩ := (happen_hides valueBuffer sound quiet).run_filter schedule
    ⟨[], some r⟩ ⟨[], some r⟩ ⟨rfl, .some ⟨Program.Alike.refl r, level⟩⟩
  exact ⟨v, w, runs, plain, same.sent, same.core⟩

/-- Two instructions and a system call, with an interrupt behind each. -/
def callSchedule : List Happening :=
  [.instruction, .interrupt 0, .instruction, .interrupt 1, .instruction, .interrupt 2]

theorem interrupts_unseen_counting : ∃ v w,
    Unseen.run (happen countingProgram ruiningHandlers (Vector.replicate 20 0)) ⟨[], some (countingFrom 0)⟩
      callSchedule = .ok v ∧
    Unseen.run (happen countingProgram ruiningHandlers (Vector.replicate 20 0)) ⟨[], some (countingFrom 0)⟩
      (callSchedule.filter fun e => !e.isInterrupt) = .ok w ∧
    v.sent = w.sent ∧ Option.Rel countingProgram.AlikeAtEl1 v.core w.core :=
  interrupts_unseen _ countingProgram_sound ruiningHandlers_quiet (r := countingFrom 0) (by decide) callSchedule

end Running

end KehindeKernel
