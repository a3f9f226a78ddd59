import KehindeKernel.Shell
import KehindeKernel.FsRuns
import KehindeKernel.Lib.Framing
import KehindeKernel.Lib.Replay

/-!
`read_line` on the bytes the UART receives. The loop stops at CR or LF, and also
when the buffer is full: then the terminator has not been read, and the rest of
the typed line becomes the next command. `uart` gives the bytes in order; `none`
is a byte that never arrives, for which `uart_getc` waits.
-/

namespace KehindeKernel

open Outcome Framing

structure LineInput where
  buf : List UInt8
  echo : List UInt8
  deriving DecidableEq, Repr

/-- The loop of `read_line` from the byte at `pos` on, with the position it
leaves the stream at. `char` is unsigned on this target. -/
def readLine (uart : Nat → Option UInt8) (max : Nat) : Nat → Nat → LineInput → Option (LineInput × Nat)
  | 0, _, _ => none
  | trips + 1, pos, i =>
      if i.buf.length < max - 1 then
        match uart pos with
        | none => none
        | some c =>
            if c = 13 ∨ c = 10 then some ({ i with echo := i.echo ++ newline }, pos + 1)
            else if (c = 127 ∨ c = 8) ∧ i.buf.length > 0 then
              readLine uart max trips (pos + 1)
                { buf := i.buf.dropLast, echo := i.echo ++ [8, 32, 8] }
            else if c ≥ 32 then
              readLine uart max trips (pos + 1) { buf := i.buf ++ [c], echo := i.echo ++ [c] }
            else readLine uart max trips (pos + 1) i
      else some (i, pos)

def LineCall (uart : Nat → Option UInt8) (pos : Nat) (line : LineInput) (next : Nat) : Prop :=
  ∃ trips, readLine uart maxLine trips pos ⟨[], []⟩ = some (line, next)

def editByte (i : LineInput) (c : UInt8) : LineInput :=
  if (c = 127 ∨ c = 8) ∧ i.buf.length > 0 then { buf := i.buf.dropLast, echo := i.echo ++ [8, 32, 8] }
  else if c ≥ 32 then { buf := i.buf ++ [c], echo := i.echo ++ [c] }
  else i

def lineReader (max : Nat) : Reader UInt8 LineInput where
  init := ⟨[], []⟩
  step := editByte
  ends c := c = 13 ∨ c = 10
  finish i := { i with echo := i.echo ++ newline }
  full i := ¬ i.buf.length < max - 1

theorem readLine_eq (uart : Nat → Option UInt8) (max trips pos : Nat) (i : LineInput) :
    readLine uart max trips pos i = (lineReader max).read uart trips pos i := by
  induction trips generalizing pos i with
  | zero => rfl
  | succ trips ih =>
      rw [readLine, Reader.read]
      by_cases room : i.buf.length < max - 1
      · have spare : (lineReader max).full i = false := decide_eq_false (not_not_intro room)
        rw [if_pos room, spare, if_neg Bool.false_ne_true]
        cases uart pos with
        | none => rfl
        | some c =>
            dsimp only
            by_cases stop : c = 13 ∨ c = 10
            · have ends : (lineReader max).ends c = true := decide_eq_true stop
              rw [if_pos stop, if_pos ends]
              rfl
            · have goes : (lineReader max).ends c = false := decide_eq_false stop
              rw [if_neg stop, goes, if_neg Bool.false_ne_true, ← ih]
              simp only [lineReader, editByte]
              split
              · rfl
              · split
                · rfl
                · rfl
      · have full : (lineReader max).full i = true := decide_eq_true room
        rw [if_neg room, if_pos full]

theorem lineCall_eq (uart : Nat → Option UInt8) :
    LineCall uart = (lineReader maxLine).Call uart := by
  funext pos line next
  simp only [LineCall, Reader.Call, readLine_eq]
  rfl

section Shell

variable {σ : Type} [Backing σ] (banner : List UInt8) (t : Shell σ) (uptime : Nat → Nat)

/-- The commands on these lines all come back to the prompt, so `shell_run`
calls `read_line` again. -/
def PromptsAgain (lines : List LineInput) : Prop :=
  ∃ last, Replay.attempt (shellStep banner) t
    (lines.mapIdx fun i line => ⟨line.buf, uptime i⟩) = .ok last

/-- The lines `shell_run` obtains are the CR/LF-terminated segments of the
stream, one to one and in order, each edited as typed. -/
def FramesCommands (uart : Nat → Option UInt8) : Prop :=
  Framed (lineReader maxLine) uart (PromptsAgain banner t uptime) (LineCall uart)

/-- No segment the shell gets to is ever edited to 255 bytes. -/
def LinesFit (uart : Nat → Option UInt8) : Prop :=
  ∀ lines start, Chain (PromptsAgain banner t uptime) (Segment (lineReader maxLine) uart) lines start →
    PromptsAgain banner t uptime lines → ∀ n, Quiet (lineReader maxLine) uart start n →
      (fed (lineReader maxLine) uart start n).buf.length < maxLine - 1

/-- Lines and commands match one to one exactly when every line stays below the
buffer's capacity while it is typed. -/
theorem command_framing_iff (uart : Nat → Option UInt8) :
    FramesCommands banner t uptime uart ↔ LinesFit banner t uptime uart := by
  have full : ∀ i : LineInput, (lineReader maxLine).full i = false ↔ i.buf.length < maxLine - 1 :=
    fun i => decide_eq_false_iff_not.trans not_not
  rw [FramesCommands, lineCall_eq, framed_iff]
  simp only [Roomy, LinesFit, full]

end Shell

def longTyped (n : Nat) : Option UInt8 :=
  if n < 255 then some 97 else if n = 255 then some 13 else none

/-- The CR of a line of 255 letters is read as an empty line of its own. -/
theorem read_line_splits_long_line :
    ¬ ∀ (banner : List UInt8) (t : Shell Endless) (uptime : Nat → Nat) (uart : Nat → Option UInt8),
      FramesCommands banner t uptime uart := by
  intro claimed
  have boots : (fsBoot Endless.mk (fun _ _ => 0)).toBool = true := by decide +kernel
  cases booted : fsBoot Endless.mk (fun _ _ => 0) with
  | error stop =>
      rw [booted] at boots
      exact absurd boots Bool.false_ne_true
  | ok fs =>
      have framed := claimed [] (shellStart [] fs) (fun _ => 0) longTyped
      rw [FramesCommands, lineCall_eq, framed_iff] at framed
      have quiet : Quiet (lineReader maxLine) longTyped 0 255 := by
        intro k below
        exact ⟨97, by rw [Nat.zero_add, longTyped, if_pos below], rfl⟩
      have room := framed [] 0 .nil ⟨_, rfl⟩ 255 quiet
      rw [show (lineReader maxLine).full (fed (lineReader maxLine) longTyped 0 255) = true by
        decide +kernel] at room
      exact absurd room.symm Bool.false_ne_true

end KehindeKernel
