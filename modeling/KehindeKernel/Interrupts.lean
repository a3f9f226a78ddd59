import KehindeKernel.Console

/-!
Interrupts: `handle_interrupt_requests` of both boards, taken at any point of the
program and with the devices at work throughout. The timer line stays up from the
moment the timer fires until the handler loads it again. On the Pi 3 the handler
looks at the line once, before anything else, and on the Pi 5 the GIC says once what
was acknowledged; either way each firing is counted exactly once.
-/

namespace KehindeKernel

open Driver

/-- `IRQ_C0_SOURCE` -/
def irqC0Source : Nat := 0x40000060

/-- `IRQ_P2` -/
def irqP2 : Nat := 0x3F00B000 + 0x208

/-- `UART0_ICR` -/
def uart0Icr (base : Nat) : Nat := base + 0x44

/-- `GICC_IAR` -/
def giccIar : Nat := 0x107FFF8000 + 0x2000 + 0x00C

/-- `GICC_EOIR` -/
def giccEoir : Nat := 0x107FFF8000 + 0x2000 + 0x010

/-- `UART0_BASE` of the Pi 3. -/
def uart0BasePi3 : Nat := 0x3F201000

/-- `UART0_BASE` of the Pi 5. -/
def uart0BasePi5 : Nat := 0x1C00000000 + 0x30000

/-- `increment_time` -/
def incrementTime : Prog Port Unit := do
  let time ← readReg .time
  writeReg .time ((time + 1) % 2 ^ 64)

/-- `get_freq` -/
def getFreq : Prog Port Nat := readReg .freq

/-- `uart_handle_irq` of the Pi 3. -/
def uartHandleIrq : Prog Port Unit := writeReg (.mmio (uart0Icr uart0BasePi3)) 0x7FF

/-- `handle_interrupt_requests` of the Pi 3. -/
def handleInterruptRequestsPi3 : Prog Port Unit := do
  let irqPendStatus ← readReg (.mmio irqC0Source)
  let pending2 ← readReg (.mmio irqP2)
  (if pending2 &&& (1 <<< 25) ≠ 0 then uartHandleIrq else pure ())
  let freq ← getFreq
  (if irqPendStatus &&& (1 <<< 1) ≠ 0 then do
    writeReg .cntpTval (freq / 10)
    incrementTime
  else pure ())

/-- `handle_interrupt_requests` of the Pi 5. -/
def handleInterruptRequestsPi5 : Prog Port Unit := do
  let iar ← readReg (.mmio giccIar)
  let intId := iar &&& 0x3FF
  (if intId = 30 then do
    let freq ← getFreq
    writeReg .cntpTval (freq / 10)
    incrementTime
  else pure ())
  writeReg (.mmio giccEoir) iar

/-- What the handlers see of the chip. `fired` counts the times the timer line went
up, `ticks` the stores to `time`. `acknowledged` holds the interrupts taken from the
GIC and not ended; `misused` counts the ends of any other. -/
structure Soc where
  uart : Pl011
  uartLine : Bool
  timerLine : Bool
  fired : Nat
  ticks : Nat
  time : Nat
  acknowledged : List Nat
  misused : Nat

/-- Behind `timer_init` and `interrupt_init`. -/
def Soc.started : Soc := ⟨Pl011.idle, false, false, 0, 0, 0, [], 0⟩

def Soc.fire (s : Soc) : Soc :=
  if s.timerLine then s else { s with timerLine := true, fired := s.fired + 1 }

/-- A store to CNTP_TVAL_EL0, a signed 32-bit distance to the next firing. -/
def Soc.reload (s : Soc) (value : Nat) : Soc :=
  if 0 < value % 2 ^ 32 ∧ value % 2 ^ 32 < 2 ^ 31 then { s with timerLine := false } else s.fire

def Soc.count (s : Soc) (value : Nat) : Soc := { s with time := value % 2 ^ 64, ticks := s.ticks + 1 }

/-- Between two accesses the lines carry bytes, the UART raises or drops its line, and
the timer fires. -/
inductive Soc.Moves (depth : Nat) : Soc → Soc → Prop where
  | uart (s : Soc) (next : Pl011) (moves : Pl011.Moves depth s.uart next) : Moves depth s { s with uart := next }
  | uartLine (s : Soc) (level : Bool) : Moves depth s { s with uartLine := level }
  | fires (s : Soc) (idle : s.timerLine = false) : Moves depth s { s with timerLine := true, fired := s.fired + 1 }

section Pi3

def Soc.loadPi3 (depth freq : Nat) (s : Soc) : Port → Nat × Soc
  | .mmio reg =>
      if reg = irqC0Source then (s.timerLine.toNat <<< 1 ||| s.uartLine.toNat <<< 8, s)
      else if reg = irqP2 then (s.uartLine.toNat <<< 25, s)
      else ((s.uart.load uart0BasePi3 depth reg).1, { s with uart := (s.uart.load uart0BasePi3 depth reg).2 })
  | .time => (s.time, s)
  | .freq => (freq, s)
  | .cntpTval => (0, s)

/-- Ones in UART0_ICR clear what they name. -/
def Soc.storePi3 (depth : Nat) (s : Soc) : Port → Nat → Soc
  | .mmio reg, value =>
      if reg = uart0Icr uart0BasePi3 then { s with uartLine := s.uartLine && decide (value &&& 0x7FF ≠ 0x7FF) }
      else { s with uart := s.uart.store uart0BasePi3 depth reg value }
  | .time, value => s.count value
  | .freq, _ => s
  | .cntpTval, value => s.reload value

def socPi3 (depth freq : Nat) : Device Port Soc where
  load := Soc.loadPi3 depth freq
  store := Soc.storePi3 depth
  moves := Soc.Moves depth

end Pi3

section Pi5

/-- An interrupt is acknowledged once until it is ended; 1023 says there is none. -/
def Soc.acknowledge (s : Soc) : Nat × Soc :=
  if s.timerLine = true ∧ 30 ∉ s.acknowledged then (30, { s with acknowledged := 30 :: s.acknowledged })
  else (1023, s)

/-- The end of a spurious interrupt is ignored. -/
def Soc.finish (s : Soc) (id : Nat) : Soc :=
  if id ∈ s.acknowledged then { s with acknowledged := s.acknowledged.erase id }
  else if 1020 ≤ id then s
  else { s with misused := s.misused + 1 }

def Soc.loadPi5 (depth freq : Nat) (s : Soc) : Port → Nat × Soc
  | .mmio reg =>
      if reg = giccIar then s.acknowledge
      else ((s.uart.load uart0BasePi5 depth reg).1, { s with uart := (s.uart.load uart0BasePi5 depth reg).2 })
  | .time => (s.time, s)
  | .freq => (freq, s)
  | .cntpTval => (0, s)

def Soc.storePi5 (depth : Nat) (s : Soc) : Port → Nat → Soc
  | .mmio reg, value =>
      if reg = giccEoir then s.finish (value &&& 0x3FF)
      else { s with uart := s.uart.store uart0BasePi5 depth reg value }
  | .time, value => s.count value
  | .freq, _ => s
  | .cntpTval, value => s.reload value

def socPi5 (depth freq : Nat) : Device Port Soc where
  load := Soc.loadPi5 depth freq
  store := Soc.storePi5 depth
  moves := Soc.Moves depth

end Pi5

inductive Chip where
  | pi3
  | pi5
  deriving DecidableEq, Repr

def Chip.uartBase : Chip → Nat
  | .pi3 => uart0BasePi3
  | .pi5 => uart0BasePi5

def Chip.soc : Chip → Nat → Nat → Device Port Soc
  | .pi3 => socPi3
  | .pi5 => socPi5

def Chip.handler : Chip → Prog Port Unit
  | .pi3 => handleInterruptRequestsPi3
  | .pi5 => handleInterruptRequestsPi5

/-- The frequencies at which a tenth of a second is a distance the timer takes. -/
def Ticking (freq : Nat) : Prop := 0 < freq / 10 ∧ freq / 10 < 2 ^ 31

/-- The books after `n` ticks, with `owed` firings reloaded and not counted yet: every
other firing is counted or keeps the line up. -/
structure Books (n owed : Nat) (open_ : List Nat) (s : Soc) : Prop where
  counted : s.ticks = n
  fired : s.fired = n + owed + s.timerLine.toNat
  time : s.time = n % 2 ^ 64
  acknowledged : s.acknowledged = open_
  misused : s.misused = 0

/-- The books between two interrupts. -/
def Balanced (s : Soc) : Prop := ∃ n, Books n 0 [] s

/-- What a handler may do in one access: nothing to the FIFOs, and one tick at most. -/
def Within (s s' : Soc) : Prop := s'.uart = s.uart ∧ (s'.ticks = s.ticks ∨ s'.ticks = s.ticks + 1)

def Soc.serial (s : Soc) : Serial := ⟨s.uart, s.ticks⟩

variable {chip : Chip} {depth freq : Nat}

theorem Chip.moves_eq (chip : Chip) : (chip.soc depth freq).moves = Soc.Moves depth := by
  cases chip with
  | pi3 => rfl
  | pi5 => rfl

section Stability

theorem books_stable (n owed : Nat) (open_ : List Nat) : Stable (chip.soc depth freq) (Books n owed open_) := by
  intro s s' books moves
  rw [chip.moves_eq] at moves
  obtain ⟨counted, fired, time, acknowledged, misused⟩ := books
  cases moves with
  | uart next moves => exact ⟨counted, fired, time, acknowledged, misused⟩
  | uartLine level => exact ⟨counted, fired, time, acknowledged, misused⟩
  | fires idle =>
      refine ⟨counted, ?_, time, acknowledged, misused⟩
      rw [idle] at fired
      simp only [fired, Bool.toNat_true, Bool.toNat_false, Nat.add_zero]

/-- Only the handler takes the timer line down. -/
theorem line_stable (fact : Prop) : Stable (chip.soc depth freq) fun s => fact → s.timerLine = true := by
  intro s s' up moves holds
  rw [chip.moves_eq] at moves
  cases moves with
  | uart next moves => exact up holds
  | uartLine level => exact up holds
  | fires idle => rfl

theorem line_up_stable : Stable (chip.soc depth freq) fun s => s.timerLine = true :=
  fun s s' up moves => line_stable True s s' (fun _ => up) moves trivial

end Stability

section Accesses

theorem within_refl (s : Soc) : Within s s := ⟨rfl, .inl rfl⟩

theorem chip_time (s : Soc) : (chip.soc depth freq).load s .time = (s.time, s) := by
  cases chip with
  | pi3 => rfl
  | pi5 => rfl

theorem chip_freq (s : Soc) : (chip.soc depth freq).load s .freq = (freq, s) := by
  cases chip with
  | pi3 => rfl
  | pi5 => rfl

theorem chip_reload (s : Soc) (value : Nat) : (chip.soc depth freq).store s .cntpTval value = s.reload value := by
  cases chip with
  | pi3 => rfl
  | pi5 => rfl

theorem chip_count (s : Soc) (value : Nat) : (chip.soc depth freq).store s .time value = s.count value := by
  cases chip with
  | pi3 => rfl
  | pi5 => rfl

theorem incrementTime_counts (n : Nat) (open_ : List Nat) :
    Triple (chip.soc depth freq) Within (Books n 1 open_) incrementTime fun _ => Books (n + 1) 0 open_ := by
  have reads : Triple (chip.soc depth freq) Within (Books n 1 open_) (readReg .time)
      fun value s => Books n 1 open_ s ∧ value = n % 2 ^ 64 := by
    apply triple_read (books_stable n 1 open_) fun value => (books_stable n 1 open_).and (stable_prop _)
    intro s books
    rw [chip_time]
    exact ⟨within_refl s, books, books.time⟩
  refine triple_bind reads fun value => ?_
  apply triple_write ((books_stable n 1 open_).and (stable_prop _)) (books_stable (n + 1) 0 open_)
  rintro s ⟨⟨counted, fired, time, acknowledged, misused⟩, rfl⟩
  rw [chip_count]
  refine ⟨⟨rfl, .inr rfl⟩, congrArg (· + 1) counted, fired, ?_, acknowledged, misused⟩
  show (n % 2 ^ 64 + 1) % 2 ^ 64 % 2 ^ 64 = (n + 1) % 2 ^ 64
  omega

/-- A reload of the timer takes the line down and leaves the firing to be counted. -/
theorem reload_owes (ticking : Ticking freq) (n : Nat) (open_ : List Nat) :
    Triple (chip.soc depth freq) Within (fun s => Books n 0 open_ s ∧ s.timerLine = true)
      (writeReg .cntpTval (freq / 10)) fun _ => Books n 1 open_ := by
  apply triple_write ((books_stable n 0 open_).and line_up_stable) (books_stable n 1 open_)
  rintro s ⟨⟨counted, fired, time, acknowledged, misused⟩, up⟩
  obtain ⟨positive, small⟩ := ticking
  have distance : freq / 10 % 2 ^ 32 = freq / 10 := Nat.mod_eq_of_lt (by omega)
  rw [chip_reload, Soc.reload, distance, if_pos ⟨positive, small⟩]
  refine ⟨⟨rfl, .inl rfl⟩, counted, ?_, time, acknowledged, misused⟩
  rw [up] at fired
  exact fired

theorem getFreq_reads {assertion : Soc → Prop} (stable : Stable (chip.soc depth freq) assertion) :
    Triple (chip.soc depth freq) Within assertion getFreq fun value s => assertion s ∧ value = freq := by
  apply triple_read stable fun value => stable.and (stable_prop (value = freq))
  intro s holds
  rw [chip_freq]
  exact ⟨within_refl s, holds, rfl⟩

/-- The timer's part of both handlers. -/
theorem tick_counts (ticking : Ticking freq) (n : Nat) (open_ : List Nat) :
    Triple (chip.soc depth freq) Within (fun s => (Books n 0 open_ s ∧ s.timerLine = true) ∧ freq = freq)
      (writeReg .cntpTval (freq / 10) >>= fun _ => incrementTime) fun _ => Books (n + 1) 0 open_ :=
  (triple_bind (reload_owes ticking n open_) fun _ => incrementTime_counts n open_).weaken fun _ holds => holds.1

end Accesses

/-- What a handler leaves: it has counted a tick if one was due, and one at most. -/
def Handled (n : Nat) (due : Prop) (s : Soc) : Prop :=
  ∃ m, Books m 0 [] s ∧ (m = n ∨ m = n + 1) ∧ (due → m = n + 1)

theorem c0_bit : ∀ timer uart : Bool,
    (timer.toNat <<< 1 ||| uart.toNat <<< 8) &&& (1 <<< 1) ≠ 0 ↔ timer = true := by
  decide

/-- The timer's bit is looked at once. If it was set the line is still up when the
timer is reloaded, and if it was not the line keeps what it has for the next time. -/
theorem handler_pi3 (ticking : Ticking freq) (n : Nat) (due : Prop) : Triple (Chip.pi3.soc depth freq) Within
    (fun s => Books n 0 [] s ∧ (due → s.timerLine = true)) handleInterruptRequestsPi3 fun _ => Handled n due := by
  have books : Stable (Chip.pi3.soc depth freq) (Books n 0 []) := books_stable n 0 []
  have known : ∀ status : Nat, Stable (Chip.pi3.soc depth freq) fun s =>
      Books n 0 [] s ∧ (status &&& (1 <<< 1) ≠ 0 → s.timerLine = true) ∧ (due → status &&& (1 <<< 1) ≠ 0) :=
    fun status => books.and ((line_stable _).and (stable_prop _))
  have snapshot : Triple (Chip.pi3.soc depth freq) Within (fun s => Books n 0 [] s ∧ (due → s.timerLine = true))
      (readReg (.mmio irqC0Source)) fun status s =>
        Books n 0 [] s ∧ (status &&& (1 <<< 1) ≠ 0 → s.timerLine = true) ∧ (due → status &&& (1 <<< 1) ≠ 0) := by
    apply triple_read (books.and (line_stable due)) known
    rintro s ⟨holds, up⟩
    have bit := c0_bit s.timerLine s.uartLine
    exact ⟨within_refl s, holds, bit.mp, fun isDue => bit.mpr (up isDue)⟩
  refine triple_bind snapshot fun status => ?_
  have pending : Triple (Chip.pi3.soc depth freq) Within
      (fun s => Books n 0 [] s ∧ (status &&& (1 <<< 1) ≠ 0 → s.timerLine = true) ∧ (due → status &&& (1 <<< 1) ≠ 0))
      (readReg (.mmio irqP2)) fun _ s =>
        Books n 0 [] s ∧ (status &&& (1 <<< 1) ≠ 0 → s.timerLine = true) ∧ (due → status &&& (1 <<< 1) ≠ 0) :=
    triple_read (known status) (fun _ => known status) fun s holds => ⟨within_refl s, holds⟩
  refine triple_bind pending fun pending2 => ?_
  have cleared : Triple (Chip.pi3.soc depth freq) Within
      (fun s => Books n 0 [] s ∧ (status &&& (1 <<< 1) ≠ 0 → s.timerLine = true) ∧ (due → status &&& (1 <<< 1) ≠ 0))
      (if pending2 &&& (1 <<< 25) ≠ 0 then uartHandleIrq else pure ()) fun _ s =>
        Books n 0 [] s ∧ (status &&& (1 <<< 1) ≠ 0 → s.timerLine = true) ∧ (due → status &&& (1 <<< 1) ≠ 0) := by
    refine triple_ite (fun _ => ?_) fun _ => triple_pure () (known status)
    apply triple_write (known status) (known status)
    rintro s ⟨⟨counted, fired, time, acknowledged, misused⟩, up⟩
    exact ⟨⟨rfl, .inl rfl⟩, ⟨counted, fired, time, acknowledged, misused⟩, up⟩
  refine triple_bind cleared fun _ => triple_bind (getFreq_reads (known status)) fun value => ?_
  refine triple_ite (fun seen => ?_) fun unseen => ?_
  · rintro s ⟨⟨holds, up, _⟩, rfl⟩
    exact (tick_counts ticking n [] s ⟨⟨holds, up seen⟩, rfl⟩).mono
      fun _ _ counted => ⟨n + 1, counted, .inr rfl, fun _ => rfl⟩
  · rintro s ⟨⟨holds, _, noticed⟩, _⟩
    exact (triple_pure () books s holds).mono
      fun _ _ same => ⟨n, same, .inl rfl, fun isDue => absurd (noticed isDue) unseen⟩

/-- What the GIC answers stays true until it is told the end. -/
theorem handler_pi5 (ticking : Ticking freq) (n : Nat) (due : Prop) : Triple (Chip.pi5.soc depth freq) Within
    (fun s => Books n 0 [] s ∧ (due → s.timerLine = true)) handleInterruptRequestsPi5 fun _ => Handled n due := by
  have books : ∀ n open_, Stable (Chip.pi5.soc depth freq) (Books n 0 open_) := fun n open_ => books_stable n 0 open_
  have up : Stable (Chip.pi5.soc depth freq) fun s => s.timerLine = true := line_up_stable
  have answer : Triple (Chip.pi5.soc depth freq) Within (fun s => Books n 0 [] s ∧ (due → s.timerLine = true))
      (readReg (.mmio giccIar)) fun iar s =>
        (iar = 30 ∧ Books n 0 [30] s ∧ s.timerLine = true) ∨ ((iar = 1023 ∧ ¬ due) ∧ Books n 0 [] s) := by
    apply triple_read ((books n []).and (line_stable due)) fun iar =>
      ((stable_prop (iar = 30)).and ((books n [30]).and up)).or ((stable_prop (iar = 1023 ∧ ¬ due)).and (books n []))
    rintro s ⟨⟨counted, fired, time, acknowledged, misused⟩, isUp⟩
    have load : (Chip.pi5.soc depth freq).load s (.mmio giccIar) = s.acknowledge := rfl
    rw [load]
    by_cases line : s.timerLine = true
    · have taken : s.acknowledge = (30, { s with acknowledged := [30] }) := by
        simp [Soc.acknowledge, line, acknowledged]
      rw [taken]
      exact ⟨⟨rfl, .inl rfl⟩, .inl ⟨rfl, ⟨counted, fired, time, rfl, misused⟩, line⟩⟩
    · have none_ : s.acknowledge = (1023, s) := by simp [Soc.acknowledge, line]
      rw [none_]
      exact ⟨within_refl s, .inr ⟨⟨rfl, fun isDue => line (isUp isDue)⟩, counted, fired, time, acknowledged, misused⟩⟩
  refine triple_bind answer fun iar => ?_
  have counted : Triple (Chip.pi5.soc depth freq) Within
      (fun s => (iar = 30 ∧ Books n 0 [30] s ∧ s.timerLine = true) ∨ ((iar = 1023 ∧ ¬ due) ∧ Books n 0 [] s))
      (if iar &&& 0x3FF = 30 then do
        let freq ← getFreq
        writeReg .cntpTval (freq / 10)
        incrementTime
      else pure ())
      fun _ s => (iar = 30 ∧ Books (n + 1) 0 [30] s) ∨ ((iar = 1023 ∧ ¬ due) ∧ Books n 0 [] s) := by
    rintro s (⟨rfl, isDue⟩ | ⟨⟨rfl, notDue⟩, holds⟩)
    · have ticks : Triple (Chip.pi5.soc depth freq) Within (fun s => Books n 0 [30] s ∧ s.timerLine = true)
          (getFreq >>= fun freq => writeReg .cntpTval (freq / 10) >>= fun _ => incrementTime)
          fun _ => Books (n + 1) 0 [30] := by
        refine triple_bind (getFreq_reads ((books n [30]).and up)) fun value => ?_
        rintro t ⟨holds, rfl⟩
        exact tick_counts ticking n [30] t ⟨holds, rfl⟩
      exact (ticks s isDue).mono fun _ _ holds => Or.inl ⟨rfl, holds⟩
    · exact (triple_pure () (books n []) s holds).mono fun _ _ same => Or.inr ⟨⟨rfl, notDue⟩, same⟩
  refine triple_bind counted fun _ => ?_
  have handled : Stable (Chip.pi5.soc depth freq) (Handled n due) := by
    rintro s s' ⟨m, holds, result⟩ moves
    exact ⟨m, books m [] s s' holds moves, result⟩
  apply triple_write (((stable_prop (iar = 30)).and (books (n + 1) [30])).or
    ((stable_prop (iar = 1023 ∧ ¬ due)).and (books n []))) handled
  rintro s (⟨rfl, counted, fired, time, acknowledged, misused⟩ |
    ⟨⟨rfl, notDue⟩, counted, fired, time, acknowledged, misused⟩)
  · have ended : s.finish (30 &&& 0x3FF) = { s with acknowledged := [] } := by simp [Soc.finish, acknowledged]
    show Within s (s.finish (30 &&& 0x3FF)) ∧ Handled n due (s.finish (30 &&& 0x3FF))
    rw [ended]
    exact ⟨⟨rfl, .inl rfl⟩, n + 1, ⟨counted, fired, time, rfl, misused⟩, .inr rfl, fun _ => rfl⟩
  · have ignored : s.finish (1023 &&& 0x3FF) = s := by simp [Soc.finish, acknowledged]
    show Within s (s.finish (1023 &&& 0x3FF)) ∧ Handled n due (s.finish (1023 &&& 0x3FF))
    rw [ignored]
    exact ⟨within_refl s, n, ⟨counted, fired, time, acknowledged, misused⟩, .inl rfl, fun isDue => absurd isDue notDue⟩

theorem handler_counts (chip : Chip) (ticking : Ticking freq) (n : Nat) (due : Prop) :
    Triple (chip.soc depth freq) Within (fun s => Books n 0 [] s ∧ (due → s.timerLine = true)) chip.handler
      fun _ => Handled n due := by
  cases chip with
  | pi3 => exact handler_pi3 ticking n due
  | pi5 => exact handler_pi5 ticking n due

theorem handler_balances (chip : Chip) (ticking : Ticking freq) :
    Triple (chip.soc depth freq) Within Balanced chip.handler fun _ => Balanced := by
  rintro s ⟨n, holds⟩
  exact (handler_counts chip ticking n False s ⟨holds, False.elim⟩).mono fun _ _ ⟨m, later, _⟩ => ⟨m, later⟩

section Console

/-- What the console loads. -/
def ConsoleReads (base : Nat) (port : Port) : Prop :=
  port = .mmio (uart0Fr base) ∨ port = .mmio (uart0Dr base) ∨ port = .time

def ConsoleWrites (base : Nat) (port : Port) : Prop := port = .mmio (uart0Dr base)

theorem console_uses {α : Type} (base : Nat) (p : Console α) :
    Uses (ConsoleReads base) (ConsoleWrites base) (p.compile base) := by
  induction p with
  | ret value => exact .done value
  | putc c next ih => exact .spin _ _ _ (.inl rfl) (.store _ _ _ rfl ih)
  | getc next ih => exact .spin _ _ _ (.inl rfl) (.load _ _ (.inr (.inl rfl)) fun data => ih _)
  | time next ih => exact .load _ _ (.inr (.inr rfl)) fun time => ih _

/-- The controllers are elsewhere. -/
theorem chip_uart_load (chip : Chip) (s : Soc) (reg : Nat)
    (console : reg = uart0Fr chip.uartBase ∨ reg = uart0Dr chip.uartBase) :
    (chip.soc depth freq).load s (.mmio reg) = ((s.uart.load chip.uartBase depth reg).1,
      { s with uart := (s.uart.load chip.uartBase depth reg).2 }) := by
  cases chip with
  | pi3 =>
      have apart : reg ≠ irqC0Source ∧ reg ≠ irqP2 := by
        rcases console with rfl | rfl
        · decide
        · decide
      exact (if_neg apart.1).trans (if_neg apart.2)
  | pi5 =>
      have apart : reg ≠ giccIar := by
        rcases console with rfl | rfl
        · decide
        · decide
      exact if_neg apart

theorem chip_uart_store (chip : Chip) (s : Soc) (value : Nat) :
    (chip.soc depth freq).store s (.mmio (uart0Dr chip.uartBase)) value =
      { s with uart := s.uart.store chip.uartBase depth (uart0Dr chip.uartBase) value } := by
  cases chip with
  | pi3 =>
      have apart : uart0Dr uart0BasePi3 ≠ uart0Icr uart0BasePi3 := by decide
      simp only [Chip.soc, Chip.uartBase, socPi3, Soc.storePi3, if_neg apart]
  | pi5 =>
      have apart : uart0Dr uart0BasePi5 ≠ giccEoir := by decide
      simp only [Chip.soc, Chip.uartBase, socPi5, Soc.storePi5, if_neg apart]

/-- On either board the console sees its serial port. -/
theorem chip_hosts (chip : Chip) : Hosts (chip.soc depth freq) (serial chip.uartBase depth) Soc.serial Balanced
    (ConsoleReads chip.uartBase) (ConsoleWrites chip.uartBase) where
  load := by
    rintro s reg ⟨n, counted, fired, time, acknowledged, misused⟩ (rfl | rfl | rfl)
    · rw [chip_uart_load chip s _ (.inl rfl)]
      exact ⟨⟨n, counted, fired, time, acknowledged, misused⟩, rfl⟩
    · rw [chip_uart_load chip s _ (.inr rfl)]
      exact ⟨⟨n, counted, fired, time, acknowledged, misused⟩, rfl⟩
    · rw [chip_time]
      refine ⟨⟨n, counted, fired, time, acknowledged, misused⟩, ?_⟩
      rw [time, ← counted]
      rfl
  store := by
    rintro s reg value ⟨n, counted, fired, time, acknowledged, misused⟩ rfl
    rw [chip_uart_store chip s value]
    exact ⟨⟨n, counted, fired, time, acknowledged, misused⟩, rfl⟩
  moves := fun s s' ⟨n, holds⟩ moves => ⟨n, books_stable n 0 [] s s' holds moves⟩
  shows_ := by
    intro s s' moves
    rw [chip.moves_eq] at moves
    cases moves with
    | uart next moves => exact .single (.uart s.serial next moves)
    | uartLine level => exact .refl
    | fires idle => exact .refl

theorem within_silent {base : Nat} (s s' : Soc) (within : Within s s') :
    (serial base depth).Later s.serial s'.serial := by
  obtain ⟨uart, same | ticked⟩ := within
  · rw [Soc.serial, Soc.serial, uart, same]
  · rw [Soc.serial, Soc.serial, uart, ticked]
    exact .single (.ticks ⟨s.uart, s.ticks⟩)

variable {α : Type}

/-- The program of the kernel, with no interrupt so far. -/
def Chip.start (chip : Chip) (start : Console α) : Task Port α Soc :=
  ⟨start.compile chip.uartBase, none, Soc.started⟩

theorem interrupted (chip : Chip) (ticking : Ticking freq) (start : Console α) {t : Task Port α Soc}
    (run : Preempted (chip.soc depth freq) chip.handler (chip.start start) t) :
    Attended (chip.soc depth freq) (ConsoleReads chip.uartBase) (ConsoleWrites chip.uartBase) Balanced Within t ∧
      Served chip.uartBase depth start (t.main, t.state.serial) := by
  have started : Attended (chip.soc depth freq) (ConsoleReads chip.uartBase) (ConsoleWrites chip.uartBase)
      Balanced Within (chip.start start) :=
    ⟨console_uses _ start, fun _ => ⟨0, rfl, rfl, rfl, rfl, rfl⟩, fun q some_ => absurd some_ (Option.some_ne_none q).symm⟩
  obtain ⟨attended, seen⟩ := run.runs_seen (chip_hosts chip) (handler_balances chip ticking) within_silent started
  exact ⟨attended, served_run seen⟩

/-- Interrupts at any point of the console's program, between the test of a flag and
the access behind it as well, change nothing of what it takes, sends and reads from
the clock. What they can cost is time, and with it bytes that overrun the FIFO. -/
theorem console_exactly_once_interrupted (chip : Chip) (depth freq : Nat) (ticking : Ticking freq)
    (start : Console α) (t : Task Port α Soc)
    (run : Preempted (chip.soc depth freq) chip.handler (chip.start start) t) :
    ∃ rest deeds, Console.Trace start deeds rest ∧
      t.state.uart.accepted = received deeds ++ t.state.uart.rx ∧
      t.state.uart.accepted.Sublist t.state.uart.arrived ∧
      t.state.uart.arrived.length = t.state.uart.accepted.length + t.state.uart.overruns ∧
      emitted deeds = t.state.uart.sent ++ t.state.uart.tx ∧ t.state.uart.lost = 0 ∧
      (readings deeds ++ [t.state.ticks]).Pairwise (· ≤ ·) := by
  obtain ⟨_, rest, deeds, trace, _, inputs, outputs, clock, lossless, among, dropped⟩ := interrupted chip ticking start run
  exact ⟨rest, deeds, trace, inputs, among, dropped, outputs, lossless, clock⟩

/-- The timer has fired before the program has done anything. -/
def Soc.firedOnce : Soc := { Soc.started with timerLine := true, fired := 1 }

theorem first_firing (start : Console α) : Preempted (Chip.pi3.soc 16 19200000) Chip.pi3.handler (Chip.pi3.start start)
    ⟨start.compile uart0BasePi3, none, Soc.firedOnce⟩ :=
  .single (.main _ _ _ _ (.moved _ _ _ (.fires Soc.started rfl)))

def Soc.tickedOnce : Soc := { Soc.started with fired := 1, ticks := 1, time := 1 }

theorem first_tick (start : Console α) : Preempted (Chip.pi3.soc 16 19200000) Chip.pi3.handler (Chip.pi3.start start)
    ⟨start.compile uart0BasePi3, none, Soc.tickedOnce⟩ := by
  refine (first_firing start).trans ?_
  refine .head (.taken _ _) ?_
  refine .head (.inside _ _ _ _ _ (.loaded _ _ _)) ?_
  refine .head (.inside _ _ _ _ _ (.loaded _ _ _)) ?_
  refine .head (.inside _ _ _ _ _ (.loaded _ _ _)) ?_
  refine .head (.inside _ _ _ _ _ (.stored _ _ _ _)) ?_
  refine .head (.inside _ _ _ _ _ (.loaded _ _ _)) ?_
  refine .head (.inside _ _ _ _ _ (.stored _ _ _ _)) ?_
  exact .single (.returned _ _)

theorem console_exactly_once_interrupted_tick : ∃ rest deeds, Console.Trace echoOnce deeds rest ∧
    [] = received deeds ++ [] ∧ ([] : List UInt8).Sublist [] ∧ ([] : List UInt8).length = ([] : List UInt8).length + 0 ∧
    emitted deeds = [] ++ [] ∧ 0 = 0 ∧ (readings deeds ++ [1]).Pairwise (· ≤ ·) :=
  console_exactly_once_interrupted .pi3 16 19200000 (by unfold Ticking; decide) echoOnce
    ⟨echoOnce.compile uart0BasePi3, none, Soc.tickedOnce⟩ (first_tick echoOnce)

/-- Between two interrupts every firing of the timer has been counted once or keeps
the line up, and every interrupt taken from the GIC has been ended, and no other. An
interrupt can always be handled to its end, and one taken while the line is up
counts exactly one tick. -/
theorem every_tick_counted_once (chip : Chip) (depth freq : Nat) (ticking : Ticking freq)
    (start : Console α) (t : Task Port α Soc)
    (run : Preempted (chip.soc depth freq) chip.handler (chip.start start) t) :
    (t.isr = none → t.state.fired = t.state.ticks + t.state.timerLine.toNat ∧
      t.state.time = t.state.ticks % 2 ^ 64 ∧ t.state.acknowledged = [] ∧ t.state.misused = 0) ∧
    (∃ s, Preempted (chip.soc depth freq) chip.handler t ⟨t.main, none, s⟩) ∧
    (t.isr = none → t.state.timerLine = true → ∀ s, Runs (chip.soc depth freq) (chip.handler, t.state) (.done (), s) →
      s.ticks = t.state.ticks + 1) := by
  obtain ⟨attended, _⟩ := interrupted chip ticking start run
  refine ⟨?_, ?_, ?_⟩
  · intro idle
    obtain ⟨n, rfl, fired, time, acknowledged, misused⟩ := attended.idle idle
    exact ⟨fired, time, acknowledged, misused⟩
  · obtain ⟨s, returns, _⟩ := attended.returns
    exact ⟨s, returns⟩
  · intro idle up s handled
    obtain ⟨n, holds⟩ := attended.idle idle
    have meets : Meets (chip.soc depth freq) Within (fun _ => Handled n True) chip.handler t.state :=
      handler_counts chip ticking n True t.state ⟨holds, fun _ => up⟩
    obtain ⟨m, later, _, counted⟩ := meets.ends handled
    rw [later.counted, holds.counted, counted trivial]

theorem every_tick_counted_once_tick :
    ((none : Option (Prog Port Unit)) = none → 1 = 0 + true.toNat ∧ 0 = 0 % 2 ^ 64 ∧ ([] : List Nat) = [] ∧ 0 = 0) ∧
    (∃ s, Preempted (Chip.pi3.soc 16 19200000) Chip.pi3.handler
      ⟨echoOnce.compile uart0BasePi3, none, Soc.firedOnce⟩ ⟨echoOnce.compile uart0BasePi3, none, s⟩) ∧
    ((none : Option (Prog Port Unit)) = none → true = true →
      ∀ s, Runs (Chip.pi3.soc 16 19200000) (Chip.pi3.handler, Soc.firedOnce) (.done (), s) → s.ticks = 0 + 1) :=
  every_tick_counted_once .pi3 16 19200000 (by unfold Ticking; decide) echoOnce
    ⟨echoOnce.compile uart0BasePi3, none, Soc.firedOnce⟩ (first_firing echoOnce)

end Console

end KehindeKernel
