import KehindeKernel.Interrupts
import KehindeKernel.KernelMain
import KehindeKernel.MemoryTypes
import KehindeKernel.ReadLine

/-!
The kernel on the wire: `shell_run` as a program over `uart_getc`, `uart_putc` and
`get_time`, one byte after the other, with interrupts at any point. What leaves the
UART is what a desk shows to someone who types the bytes that the FIFO accepted.
-/

namespace KehindeKernel

open Outcome Bytes Words Driver

def uptimeLabel : List UInt8 := ascii "\rUptime: "

/-- What is sent before the kernel stops for good; `alarm` is the text `panic` is given. -/
def lastWords (alarm : List UInt8) (verb : Option (List UInt8)) : Stop → List UInt8
  | .panic => if verb = some (ascii "shutdown") then ascii "Shutting down kehinde-kernel. Ciao!\r\n" else alarm
  | _ => []

section Typing

/-- What a key shows, the line behind it, and whether the line is done. -/
structure Stroke where
  echo : List UInt8
  line : List UInt8
  entered : Bool

/-- A line is done at CR or LF, and when it fills its buffer. -/
def stroke (line : List UInt8) (c : UInt8) : Stroke :=
  if c = 13 ∨ c = 10 then ⟨newline, line, true⟩
  else
    let edited := editByte ⟨line, []⟩ c
    ⟨edited.echo, edited.buf, !decide (edited.buf.length < maxLine - 1)⟩

namespace Desk

variable (banner alarm : List UInt8)

/-- What a command shows, and the desk and the clock it leaves. -/
def reply (k : Desk) (verb : Option (List UInt8)) (clock : List Nat) : Run Desk → List UInt8 × Option (Desk × List Nat)
  | .ok k' => (k'.out.drop k.out.length, some (k', clock))
  | .error stop => (lastWords alarm verb stop, none)

/-- What a line shows and leaves. `uptime` reads the clock. -/
def answer (k : Desk) (line : List UInt8) (clock : List Nat) : List UInt8 × Option (Desk × List Nat) :=
  let verb := (words space line).head?
  if verb = some (ascii "uptime") then
    match clock with
    | [] => (uptimeLabel, none)
    | tick :: clock => k.reply alarm verb clock (k.dispatch banner ⟨line, tick % 2 ^ 64⟩)
  else k.reply alarm verb clock (k.dispatch banner ⟨line, 0⟩)

/-- What the screen shows behind a prompt and the line so far, while keys are typed
and the clock is seen at these ticks. -/
def transcript : List UInt8 → Desk → List UInt8 → List Nat → List UInt8
  | [], _, _, _ => []
  | c :: keys, k, line, clock =>
      let key := stroke line c
      key.echo ++ if key.entered then
        match k.answer banner alarm key.line clock with
        | (shown, none) => shown
        | (shown, some (k', clock)) => shown ++ (k'.prompt ++ transcript keys (k'.puts k'.prompt) [] clock)
      else transcript keys k key.line clock

def prompted (keys : List UInt8) (k : Desk) (clock : List Nat) : List UInt8 :=
  k.prompt ++ transcript banner alarm keys (k.puts k.prompt) [] clock

def afterAnswer (keys : List UInt8) : List UInt8 × Option (Desk × List Nat) → List UInt8
  | (shown, none) => shown
  | (shown, some (k', clock)) => shown ++ prompted banner alarm keys k' clock

theorem transcript_cons (c : UInt8) (keys : List UInt8) (k : Desk) (line : List UInt8) (clock : List Nat) :
    transcript banner alarm (c :: keys) k line clock = (stroke line c).echo ++
      if (stroke line c).entered then
        afterAnswer banner alarm keys (k.answer banner alarm (stroke line c).line clock)
      else transcript banner alarm keys k (stroke line c).line clock := rfl

/-- The screen from the moment the kernel starts. -/
def screen (keys : List UInt8) (clock : List Nat) : List UInt8 :=
  (Desk.boot banner).out ++ prompted banner alarm keys (Desk.boot banner) clock

end Desk

end Typing

section Programs

variable {α : Type}

/-- `uart_puts` -/
def Console.puts (bytes : List UInt8) (next : Console α) : Console α := bytes.foldr .putc next

/-- `read_line`, for as long as `trips` lasts. -/
def Console.readLine (max : Nat) (next : List UInt8 → Console Unit) : Nat → List UInt8 → Console Unit
  | 0, _ => .ret ()
  | trips + 1, buf =>
      if buf.length < max - 1 then .getc fun c =>
        if c = 13 ∨ c = 10 then .puts newline (next buf)
        else if (c = 127 ∨ c = 8) ∧ buf.length > 0 then .puts [8, 32, 8] (readLine max next trips buf.dropLast)
        else if c ≥ 32 then .putc c (readLine max next trips (buf ++ [c]))
        else readLine max next trips buf
      else next buf

variable {σ : Type} [Backing σ] (banner alarm : List UInt8)

/-- `argv[0]` -/
def lineVerb (line : List UInt8) : Option (List UInt8) :=
  match lineArgs line with
  | .ok args => args.head?
  | .error _ => none

/-- What a command sends behind `sent`, and the shell behind it. -/
def Console.finish (t : Shell σ) (line sent : List UInt8) (next : Shell σ → Console Unit) : Run (Shell σ) → Console Unit
  | .ok t' => .puts (t'.out.drop (t.out ++ sent).length) (next t')
  | .error stop => .puts (lastWords alarm (lineVerb line) stop) (.ret ())

/-- The loop body of `shell_run` behind `read_line`. `shell_print_time` reads the
clock behind its first text. -/
def Console.command (t : Shell σ) (line : List UInt8) (next : Shell σ → Console Unit) : Console Unit :=
  if lineVerb line = some (ascii "uptime") then .puts uptimeLabel (.time fun time =>
    .finish alarm t line uptimeLabel next (shellDispatch banner t ⟨line, time⟩))
  else .finish alarm t line [] next (shellDispatch banner t ⟨line, 0⟩)

/-- The loop of `shell_run`, for as long as `lines` and `trips` last. -/
def Console.shellLoop (trips : Nat) : Nat → Shell σ → Console Unit
  | 0, _ => .ret ()
  | lines + 1, t =>
      let prompt := t.cwdPath ++ ascii "$ "
      .puts prompt (.readLine maxLine (fun line =>
        .command banner alarm (t.puts prompt) line (shellLoop trips lines)) trips [])

/-- `kernel_main` -/
def Console.kernelMain (board : Board) (kernelEnd : Nat) (memory : Nat → BitVec 64)
    (mem : Nat → Nat → Nat) (raw : Nat → Region) (trips lines : Nat) : Console Unit :=
  match KehindeKernel.kernelMain board banner kernelEnd memory mem raw with
  | .ok t => .puts t.out (shellLoop banner alarm trips lines t)
  | .error stop => .puts (lastWords alarm none stop) (.ret ())

end Programs

section Speaking

variable {α : Type}

/-- Whatever the program has done so far, it has sent the beginning of what `script`
tells for the bytes it got and the ticks it saw, and all of it where it waits for a byte. -/
def Speaks (p : Console α) (script : List UInt8 → List Nat → List UInt8) : Prop :=
  ∀ deeds rest, Console.Trace p deeds rest → emitted deeds <+: script (received deeds) (readings deeds) ∧
    ∀ next, rest = .getc next → emitted deeds = script (received deeds) (readings deeds)

theorem speaks_ret (value : α) (script : List UInt8 → List Nat → List UInt8) : Speaks (.ret value) script := by
  intro deeds rest trace
  cases trace with
  | here => exact ⟨List.nil_prefix, fun _ waits => by contradiction⟩
  | cons _ _ _ _ _ does => cases does

theorem speaks_putc {c : UInt8} {next : Console α} {script later : List UInt8 → List Nat → List UInt8}
    (spells : ∀ keys clock, script keys clock = c :: later keys clock) (speaks : Speaks next later) :
    Speaks (.putc c next) script := by
  intro deeds rest trace
  cases trace with
  | here => exact ⟨List.nil_prefix, fun _ waits => by contradiction⟩
  | cons _ _ _ _ deeds does behind =>
      cases does
      obtain ⟨begins, all⟩ := speaks deeds rest behind
      show c :: emitted deeds <+: script (received deeds) (readings deeds) ∧
        ∀ next, rest = .getc next → c :: emitted deeds = script (received deeds) (readings deeds)
      rw [spells]
      exact ⟨List.cons_prefix_cons.mpr ⟨rfl, begins⟩, fun next waits => congrArg (c :: ·) (all next waits)⟩

theorem speaks_puts {bytes : List UInt8} {next : Console α} {script later : List UInt8 → List Nat → List UInt8}
    (spells : ∀ keys clock, script keys clock = bytes ++ later keys clock) (speaks : Speaks next later) :
    Speaks (.puts bytes next) script := by
  induction bytes generalizing script with
  | nil =>
      obtain rfl : script = later := funext₂ spells
      exact speaks
  | cons c rest ih => exact speaks_putc spells (ih fun _ _ => rfl)

theorem speaks_getc {next : UInt8 → Console α} {script : List UInt8 → List Nat → List UInt8}
    (quiet : script [] [] = []) (speaks : ∀ c, Speaks (next c) fun keys clock => script (c :: keys) clock) :
    Speaks (.getc next) script := by
  intro deeds rest trace
  cases trace with
  | here => exact ⟨List.nil_prefix, fun _ _ => quiet.symm⟩
  | cons _ _ _ _ deeds does behind =>
      cases does with
      | getc c => exact speaks c deeds rest behind

theorem speaks_time {next : Nat → Console α} {script : List UInt8 → List Nat → List UInt8}
    (speaks : ∀ tick, Speaks (next (tick % 2 ^ 64)) fun keys clock => script keys (tick :: clock)) :
    Speaks (.time next) script := by
  intro deeds rest trace
  cases trace with
  | here => exact ⟨List.nil_prefix, fun _ waits => by contradiction⟩
  | cons _ _ _ _ deeds does behind =>
      cases does with
      | time tick => exact speaks tick deeds rest behind

end Speaking

section Kernel

variable {σ : Type} [Backing σ] {raw : Nat → Region} {banner alarm : List UInt8}

theorem lineVerb_words (line : List UInt8) (plain : 0 ∉ line) : lineVerb line = (words space line).head? := by
  rw [lineVerb, lineArgs_words line plain]
  exact List.head?_take.trans (if_neg (by decide))

theorem dispatch_uptime (k : Desk) (line : List UInt8) (uptime : Nat)
    (asks : (words space line).head? = some (ascii "uptime")) : k.dispatch banner ⟨line, uptime⟩ =
      .ok (k.puts (uptimeLabel ++ (ascii (toString uptime) ++ newline ++ [10]))) := by
  obtain ⟨rest, split⟩ : ∃ rest, words space line = ascii "uptime" :: rest := by
    cases found : words space line with
    | nil => rw [found] at asks; contradiction
    | cons verb rest =>
        rw [found, List.head?_cons, Option.some.injEq] at asks
        exact ⟨rest, by rw [asks]⟩
  have fits : k.Fits (ascii "uptime") (rest.take 15) := by
    intro arg resolved
    cases rest with
    | nil => contradiction
    | cons path more => contradiction
  rw [Desk.dispatch, split]
  show (if k.Fits (ascii "uptime") (rest.take 15) then _ else _) = _
  rw [if_pos fits]
  rfl

/-- What the program does behind a prompt is what the desk shows behind one. -/
def Prompts (raw : Nat → Region) (banner alarm : List UInt8) (next : Shell σ → Console Unit) : Prop :=
  ∀ k t, Kept raw k t → Speaks (next t) fun keys clock => k.prompted banner alarm keys clock

theorem finish_speaks {k : Desk} {t : Shell σ} {plan : Run Desk} {run : Run (Shell σ)} (same : t.out = k.out)
    (follows : Follows (Kept raw) plan run) (line sent : List UInt8) (plain : 0 ∉ line)
    (begins : ∀ k', plan = .ok k' → sent <+: k'.out.drop k.out.length) (quiet : ∀ stop, plan = .error stop → sent = [])
    {next : Shell σ → Console Unit} (goes : Prompts raw banner alarm next) :
    Speaks (.finish alarm t line sent next run) fun keys clock =>
      (Desk.afterAnswer banner alarm keys (k.reply alarm (words space line).head? clock plan)).drop sent.length := by
  cases follows with
  | ok k' t' kept =>
      refine speaks_puts (fun keys clock => ?_) (goes k' t' kept)
      have start : sent.length ≤ (k'.out.drop k.out.length).length := (begins k' rfl).length_le
      rw [Desk.reply, Desk.afterAnswer, List.drop_append_of_le_length start, List.drop_drop, kept.seen.1, same,
        List.length_append]
  | stop stop =>
      rw [Console.finish, lineVerb_words line plain, quiet stop rfl]
      exact speaks_puts (fun _ _ => (List.append_nil _).symm) (speaks_ret () fun _ _ => [])

/-- The first text of `uptime` is out before the clock is read. -/
theorem command_speaks (zeros : ∀ a i, raw a i = 0) {k : Desk} {t : Shell σ} (kept : Kept raw k t)
    (line : List UInt8) (plain : 0 ∉ line) (short : line.length < maxLine) {next : Shell σ → Console Unit}
    (goes : Prompts raw banner alarm next) : Speaks (.command banner alarm t line next) fun keys clock =>
      Desk.afterAnswer banner alarm keys (k.answer banner alarm line clock) := by
  have follows : ∀ uptime, Follows (Kept raw) (k.dispatch banner ⟨line, uptime⟩)
      (shellDispatch banner t ⟨line, uptime⟩) := fun uptime =>
    dispatch_desk zeros banner ⟨line, uptime⟩ ⟨plain, short⟩ kept
  have same := kept.seen.1
  rw [Console.command, lineVerb_words line plain]
  by_cases asks : (words space line).head? = some (ascii "uptime")
  · have shown : ∀ uptime k', k.dispatch banner ⟨line, uptime⟩ = .ok k' → uptimeLabel <+: k'.out.drop k.out.length := by
      intro uptime k' done
      rw [dispatch_uptime k line uptime asks, Except.ok.injEq] at done
      rw [← done, Desk.puts, List.drop_left]
      exact List.prefix_append _ _
    have answered : ∀ tick clock, k.answer banner alarm line (tick :: clock) =
        k.reply alarm (words space line).head? clock (k.dispatch banner ⟨line, tick % 2 ^ 64⟩) := fun tick clock =>
      if_pos asks
    have label : ∀ keys clock, uptimeLabel <+:
        Desk.afterAnswer banner alarm keys (k.answer banner alarm line clock) := by
      intro keys clock
      cases clock with
      | nil =>
          have waits : k.answer banner alarm line [] = (uptimeLabel, none) := if_pos asks
          rw [waits]
          exact List.prefix_rfl
      | cons tick clock =>
          have done := @dispatch_uptime banner k line (tick % 2 ^ 64) asks
          rw [answered, done]
          exact (shown _ _ done).trans (List.prefix_append _ _)
    rw [if_pos asks]
    refine speaks_puts (fun keys clock => (List.prefix_append_drop (label keys clock))) (speaks_time fun tick => ?_)
    simp only [answered]
    refine finish_speaks same (follows _) line uptimeLabel plain (shown _) ?_ goes
    intro stop stopped
    rw [dispatch_uptime k line _ asks] at stopped
    contradiction
  · have answered : ∀ clock, k.answer banner alarm line clock =
        k.reply alarm (words space line).head? clock (k.dispatch banner ⟨line, 0⟩) := fun clock => if_neg asks
    rw [if_neg asks]
    simp only [answered]
    exact finish_speaks same (follows 0) line [] plain (fun _ _ => List.nil_prefix) (fun _ _ => rfl) goes

section Line

variable {k : Desk} {next : List UInt8 → Console Unit}
  (answers : ∀ line, 0 ∉ line → line.length < maxLine → Speaks (next line) fun keys clock =>
    Desk.afterAnswer banner alarm keys (k.answer banner alarm line clock))

include answers

theorem readLine_full (trips : Nat) (line : List UInt8) (plain : 0 ∉ line) (short : line.length < maxLine)
    (full : ¬ line.length < maxLine - 1) : Speaks (.readLine maxLine next trips line) fun keys clock =>
      Desk.afterAnswer banner alarm keys (k.answer banner alarm line clock) := by
  cases trips with
  | zero => exact speaks_ret () _
  | succ trips =>
      rw [Console.readLine, if_neg full]
      exact answers line plain short

theorem readLine_speaks (trips : Nat) (line : List UInt8) (plain : 0 ∉ line) (room : line.length < maxLine - 1) :
    Speaks (.readLine maxLine next trips line) fun keys clock => k.transcript banner alarm keys line clock := by
  induction trips generalizing line with
  | zero => exact speaks_ret () _
  | succ trips ih =>
      rw [Console.readLine, if_pos room]
      refine speaks_getc rfl fun c => ?_
      simp only [Desk.transcript_cons]
      by_cases ends : c = 13 ∨ c = 10
      · have key : stroke line c = ⟨newline, line, true⟩ := if_pos ends
        rw [if_pos ends, key]
        exact speaks_puts (fun _ _ => rfl) (answers line plain (by omega))
      have typed : stroke line c = ⟨(editByte ⟨line, []⟩ c).echo, (editByte ⟨line, []⟩ c).buf,
          !decide ((editByte ⟨line, []⟩ c).buf.length < maxLine - 1)⟩ := if_neg ends
      rw [if_neg ends]
      by_cases erases : (c = 127 ∨ c = 8) ∧ line.length > 0
      · have fewer : line.dropLast.length < maxLine - 1 := by
          rw [List.length_dropLast]
          omega
        have edited : editByte ⟨line, []⟩ c = ⟨line.dropLast, [8, 32, 8]⟩ := if_pos erases
        rw [edited, decide_eq_true fewer] at typed
        rw [if_pos erases, typed]
        exact speaks_puts (fun _ _ => rfl) (ih _ (fun inside => plain (List.dropLast_subset line inside)) fewer)
      rw [if_neg erases]
      by_cases prints : c ≥ 32
      · have edited : editByte ⟨line, []⟩ c = ⟨line ++ [c], [c]⟩ := (if_neg erases).trans (if_pos prints)
        have clean : 0 ∉ line ++ [c] := by
          intro inside
          rcases List.mem_append.mp inside with before | last
          · exact plain before
          · rw [← List.mem_singleton.mp last] at prints
            exact absurd prints (by decide)
        have length : (line ++ [c]).length = line.length + 1 := List.length_append
        rw [edited] at typed
        rw [if_pos prints, typed]
        by_cases space_ : (line ++ [c]).length < maxLine - 1
        · simp only [decide_eq_true space_]
          exact speaks_putc (fun _ _ => rfl) (ih _ clean space_)
        · simp only [decide_eq_false space_]
          exact speaks_putc (fun _ _ => rfl) (readLine_full answers trips _ clean (by omega) space_)
      · have edited : editByte ⟨line, []⟩ c = ⟨line, []⟩ := (if_neg erases).trans (if_neg prints)
        rw [edited, decide_eq_true room] at typed
        rw [if_neg prints, typed]
        exact ih line plain room

end Line

theorem shellLoop_prompts (zeros : ∀ a i, raw a i = 0) (trips lines : Nat) :
    Prompts (σ := σ) raw banner alarm (Console.shellLoop banner alarm trips lines) := by
  induction lines with
  | zero => exact fun k t kept => speaks_ret () _
  | succ lines ih =>
      intro k t kept
      refine speaks_puts (fun keys clock => ?_) (readLine_speaks (fun line plain short =>
        command_speaks zeros kept.prompts line plain short ih) trips [] List.not_mem_nil (by decide))
      rw [kept.seen.2.1]
      rfl

end Kernel

section Chips

theorem At.waits {α : Type} {base depth : Nat} {next : UInt8 → Console α} {rest : Console α} {s : Pl011}
    (here : At base depth ((Console.getc next).compile base) rest s) : ∃ later, rest = .getc later := by
  generalize waiting : (Console.getc next).compile base = p at here
  cases here with
  | waitsEmpty later => exact ⟨later, rfl⟩
  | loading later => exact ⟨later, rfl⟩
  | returned => contradiction
  | storing => contradiction
  | clocking => contradiction
  | waitsFull =>
      have same := (Prog.spin.inj waiting).2.1
      exact absurd (congrFun same (1 <<< 4)) (by decide)

/-- In zeroed RAM, however the devices, the timer's interrupts and the kernel
interleave: the keys are the first bytes that the FIFO accepted, which are all that
came over the line unless one found it full; and what leaves the UART is what the screen
of the desk shows for the keys taken so far, all of it whenever the kernel waits for a key. -/
theorem kernel_on_the_wire (chip : Chip) (banner alarm : List UInt8) (kernelEnd : Nat)
    (low : 0x80000 ≤ kernelEnd) (fits : kernelEnd ≤ physMemEnd) (memory : Nat → BitVec 64)
    (mem : Nat → Nat → Nat) (frames : kernelFrames ≤ (pmmInit kernelEnd memory).totalFrames)
    (raw : Nat → Region) (zeros : ∀ a i, raw a i = 0) (trips lines depth freq : Nat) (ticking : Ticking freq)
    (t : Task Port Unit Soc) (run : Preempted (chip.soc depth freq) chip.handler
      (chip.start (.kernelMain banner alarm chip.board kernelEnd memory mem raw trips lines)) t) :
    ∃ keys clock, t.state.uart.accepted = keys ++ t.state.uart.rx ∧
      t.state.uart.accepted.Sublist t.state.uart.arrived ∧
      (t.state.uart.overruns = 0 → t.state.uart.arrived = keys ++ t.state.uart.rx) ∧ t.state.uart.lost = 0 ∧
      (clock ++ [t.state.ticks]).Pairwise (· ≤ ·) ∧
      t.state.uart.sent ++ t.state.uart.tx <+: Desk.screen banner alarm keys clock ∧
      ∀ next, t.main = (Console.getc next).compile chip.uartBase →
        t.state.uart.sent ++ t.state.uart.tx = Desk.screen banner alarm keys clock := by
  obtain ⟨shell, booted, kept⟩ :=
    kernelMain_desk chip.board chip.known banner kernelEnd low fits memory mem frames raw
  have speaks : Speaks (.kernelMain banner alarm chip.board kernelEnd memory mem raw trips lines)
      (Desk.screen banner alarm) := by
    rw [Console.kernelMain, booted]
    refine speaks_puts (fun keys clock => ?_) (shellLoop_prompts zeros trips lines _ shell kept)
    rw [Desk.screen, kept.seen.1]
  obtain ⟨_, rest, deeds, trace, here, inputs, outputs, ticks, lossless, tallied⟩ := interrupted chip ticking _ run
  obtain ⟨begins, all⟩ := speaks deeds rest trace
  rw [outputs] at begins all
  refine ⟨received deeds, readings deeds, inputs, tallied.among, fun none_ => ?_, lossless, ticks, begins,
    fun next waits => ?_⟩
  · exact (tallied.all none_).symm.trans inputs
  dsimp only at here
  rw [waits] at here
  obtain ⟨later, same⟩ := here.waits
  exact all later same

example : Desk.prompted [] [] (ascii "lx\x7fs\rcat f\r") (Desk.boot []) [] =
    ascii "/$ lx\x08 \x08s\r\n(empty)\r\n/$ cat f\r\ncat: not found\r\n/$ " := by
  decide +kernel

def smallKernel : Console Unit :=
  .kernelMain [] [] Chip.pi3.board 0x80000 (fun _ => 0#64) (fun _ _ => 0) (fun _ _ => 0) 10 1

/-- It has been interrupted once before its first byte. -/
def smallTask : Task Port Unit Soc :=
  ⟨smallKernel.compile uart0BasePi3, none, Soc.tickedOnce⟩

theorem kernel_on_the_wire_tick : ∃ keys clock,
    smallTask.state.uart.accepted = keys ++ smallTask.state.uart.rx ∧
      smallTask.state.uart.accepted.Sublist smallTask.state.uart.arrived ∧
      (smallTask.state.uart.overruns = 0 → smallTask.state.uart.arrived = keys ++ smallTask.state.uart.rx) ∧
      smallTask.state.uart.lost = 0 ∧
      (clock ++ [smallTask.state.ticks]).Pairwise (· ≤ ·) ∧
      smallTask.state.uart.sent ++ smallTask.state.uart.tx <+: Desk.screen [] [] keys clock ∧
      ∀ next, smallTask.main = (Console.getc next).compile Chip.pi3.uartBase →
        smallTask.state.uart.sent ++ smallTask.state.uart.tx = Desk.screen [] [] keys clock := by
  have frames : kernelFrames ≤ (pmmInit 0x80000 fun _ => 0#64).totalFrames := by decide +kernel
  have ticking : Ticking 19200000 := by
    unfold Ticking
    decide
  exact kernel_on_the_wire .pi3 [] [] 0x80000 (by decide) (by decide) (fun _ => 0#64) (fun _ _ => 0) frames
    (fun _ _ => 0) (fun _ _ => rfl) 10 1 16 19200000 ticking smallTask (first_tick smallKernel)

end Chips

end KehindeKernel
