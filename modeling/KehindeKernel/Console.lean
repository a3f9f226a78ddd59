import KehindeKernel.Shell
import KehindeKernel.Lib.Driver

/-!
The console: `uart_putc` and `uart_getc` on a PL011 that shifts bytes in and out
while the driver runs, and `get_time` on a counter that ticks. The driver never
stores into a full FIFO and never loads from an empty one, so a program that uses
these calls alone sees each byte that the FIFO took in exactly once, however the
device and the driver interleave. It polls, so bytes that come faster than it asks
for them can find the FIFO full: the device drops those, and counts them here.
-/

namespace KehindeKernel

open Driver

/-- What a load or a store of the drivers reaches: device registers by address, the
timer's value register, and the two volatile variables of `timer.cpp`. -/
inductive Port where
  | mmio (address : Nat)
  | cntpTval
  | time
  | freq
  deriving DecidableEq, Repr

/-- The FIFOs of the PL011, what the receive FIFO has accepted, and what its lines have
carried. `lost` counts the stores into a full FIFO and the loads from an empty one,
`overruns` the bytes that arrived at a full one. -/
structure Pl011 where
  rx : List UInt8
  tx : List UInt8
  accepted : List UInt8
  sent : List UInt8
  lost : Nat
  arrived : List UInt8
  overruns : Nat

def Pl011.idle : Pl011 := ⟨[], [], [], [], 0, [], 0⟩

/-- `UART0_DR` -/
def uart0Dr (base : Nat) : Nat := base + 0x00

/-- `UART0_FR` -/
def uart0Fr (base : Nat) : Nat := base + 0x18

/-- The flags BUSY, RXFE, TXFF, RXFF and TXFE of the flag register. -/
def flagWord (busy rxfe txff rxff txfe : Bool) : Nat :=
  busy.toNat <<< 3 ||| rxfe.toNat <<< 4 ||| txff.toNat <<< 5 ||| rxff.toNat <<< 6 ||| txfe.toNat <<< 7

def Pl011.flags (depth : Nat) (s : Pl011) : Nat :=
  flagWord (!s.tx.isEmpty) s.rx.isEmpty (depth ≤ s.tx.length) (depth ≤ s.rx.length) s.tx.isEmpty

/-- A load from the data register takes the oldest byte received. The error bits above
it are left out: `uart_getc` returns an `unsigned char`. -/
def Pl011.load (base depth : Nat) (s : Pl011) (reg : Nat) : Nat × Pl011 :=
  if reg = uart0Fr base then (s.flags depth, s)
  else if reg = uart0Dr base then
    match s.rx with
    | [] => (0, { s with lost := s.lost + 1 })
    | c :: rest => (c.toNat, { s with rx := rest })
  else (0, s)

/-- The other registers do not reach the FIFOs. -/
def Pl011.store (base depth : Nat) (s : Pl011) (reg value : Nat) : Pl011 :=
  if reg = uart0Dr base then
    if s.tx.length < depth then { s with tx := s.tx ++ [UInt8.ofNat value] } else { s with lost := s.lost + 1 }
  else s

/-- The lines carry a byte each way at any time. What arrives at a full FIFO is dropped
by the device. -/
inductive Pl011.Moves (depth : Nat) : Pl011 → Pl011 → Prop where
  | arrives (s : Pl011) (c : UInt8) (room : s.rx.length < depth) :
      Moves depth s { s with rx := s.rx ++ [c], accepted := s.accepted ++ [c], arrived := s.arrived ++ [c] }
  | overruns (s : Pl011) (c : UInt8) (full : ¬ s.rx.length < depth) :
      Moves depth s { s with arrived := s.arrived ++ [c], overruns := s.overruns + 1 }
  | leaves (s : Pl011) (c : UInt8) (rest : List UInt8) (next : s.tx = c :: rest) :
      Moves depth s { s with tx := rest, sent := s.sent ++ [c] }

structure Serial where
  uart : Pl011
  ticks : Nat

def Serial.idle : Serial := ⟨Pl011.idle, 0⟩

def Serial.load (base depth : Nat) (s : Serial) : Port → Nat × Serial
  | .mmio reg => ((s.uart.load base depth reg).1, { s with uart := (s.uart.load base depth reg).2 })
  | .time => (s.ticks % 2 ^ 64, s)
  | _ => (0, s)

def Serial.store (base depth : Nat) (s : Serial) : Port → Nat → Serial
  | .mmio reg, value => { s with uart := s.uart.store base depth reg value }
  | _, _ => s

inductive Serial.Moves (depth : Nat) : Serial → Serial → Prop where
  | uart (s : Serial) (next : Pl011) (moves : Pl011.Moves depth s.uart next) : Moves depth s { s with uart := next }
  | ticks (s : Serial) : Moves depth s { s with ticks := s.ticks + 1 }

def serial (base depth : Nat) : Device Port Serial where
  load := Serial.load base depth
  store := Serial.store base depth
  moves := Serial.Moves depth

/-- `uart_putc` -/
def uartPutc (base : Nat) (c : UInt8) : Prog Port Unit :=
  .spin (.mmio (uart0Fr base)) (fun flags => flags &&& (1 <<< 5) ≠ 0)
    (.store (.mmio (uart0Dr base)) c.toNat (.done ()))

/-- `uart_getc` -/
def uartGetc (base : Nat) : Prog Port UInt8 :=
  .spin (.mmio (uart0Fr base)) (fun flags => flags &&& (1 <<< 4) ≠ 0)
    (.load (.mmio (uart0Dr base)) fun data => .done (UInt8.ofNat data))

/-- `get_time` -/
def getTime : Prog Port Nat := .load .time .done

/-- A program over the three calls. -/
inductive Console (α : Type) where
  | ret (value : α)
  | putc (c : UInt8) (next : Console α)
  | getc (next : UInt8 → Console α)
  | time (next : Nat → Console α)

variable {α : Type} {base depth : Nat}

def Console.compile (base : Nat) : Console α → Prog Port α
  | .ret value => .done value
  | .putc c next => uartPutc base c >>= fun _ => next.compile base
  | .getc next => uartGetc base >>= fun c => (next c).compile base
  | .time next => getTime >>= fun time => (next time).compile base

/-- What a program does: it sends a byte, gets one, or reads the clock at a tick. -/
inductive Deed where
  | sent (c : UInt8)
  | got (c : UInt8)
  | read (tick : Nat)
  deriving DecidableEq, Repr

def emitted (deeds : List Deed) : List UInt8 := deeds.filterMap fun | .sent c => some c | _ => none

def received (deeds : List Deed) : List UInt8 := deeds.filterMap fun | .got c => some c | _ => none

def readings (deeds : List Deed) : List Nat := deeds.filterMap fun | .read tick => some tick | _ => none

@[simp] theorem received_got (c : UInt8) (deeds : List Deed) : received (.got c :: deeds) = c :: received deeds := rfl

/-- One deed, and the program behind it. The clock is a 64-bit word. -/
inductive Console.Does : Console α → Deed → Console α → Prop where
  | putc (c : UInt8) (next : Console α) : Does (.putc c next) (.sent c) next
  | getc (c : UInt8) (next : UInt8 → Console α) : Does (.getc next) (.got c) (next c)
  | time (tick : Nat) (next : Nat → Console α) : Does (.time next) (.read tick) (next (tick % 2 ^ 64))

inductive Console.Trace : Console α → List Deed → Console α → Prop where
  | here (p : Console α) : Trace p [] p
  | cons (p q last : Console α) (deed : Deed) (deeds : List Deed) (does : Does p deed q) (later : Trace q deeds last) :
      Trace p (deed :: deeds) last

theorem Console.Trace.snoc {start p q : Console α} {deeds : List Deed} {deed : Deed} (trace : Trace start deeds p)
    (does : Does p deed q) : Trace start (deeds ++ [deed]) q := by
  induction trace with
  | here p => exact .cons p q q deed [] does (.here q)
  | cons p r last first rest begins _ ih => exact .cons p r q first _ begins (ih does)

/-- Where the driver is: in a wait, or behind one whose outcome still holds. -/
inductive At (base depth : Nat) : Prog Port α → Console α → Pl011 → Prop where
  | returned (value : α) (s : Pl011) : At base depth (.done value) (.ret value) s
  | waitsFull (c : UInt8) (next : Console α) (s : Pl011) :
      At base depth (.spin (.mmio (uart0Fr base)) (fun flags => flags &&& (1 <<< 5) ≠ 0)
        (.store (.mmio (uart0Dr base)) c.toNat (next.compile base))) (.putc c next) s
  | storing (c : UInt8) (next : Console α) (s : Pl011) (room : s.tx.length < depth) :
      At base depth (.store (.mmio (uart0Dr base)) c.toNat (next.compile base)) (.putc c next) s
  | waitsEmpty (next : UInt8 → Console α) (s : Pl011) :
      At base depth (.spin (.mmio (uart0Fr base)) (fun flags => flags &&& (1 <<< 4) ≠ 0)
        (.load (.mmio (uart0Dr base)) fun data => (next (UInt8.ofNat data)).compile base)) (.getc next) s
  | loading (next : UInt8 → Console α) (s : Pl011) (some_ : s.rx ≠ []) :
      At base depth (.load (.mmio (uart0Dr base)) fun data => (next (UInt8.ofNat data)).compile base) (.getc next) s
  | clocking (next : Nat → Console α) (s : Pl011) :
      At base depth (.load .time fun time => (next time).compile base) (.time next) s

theorem At.between (p : Console α) (s : Pl011) : At base depth (p.compile base) p s := by
  cases p with
  | ret value => exact .returned value s
  | putc c next => exact .waitsFull c next s
  | getc next => exact .waitsEmpty next s
  | time next => exact .clocking next s

theorem At.moves {p : Prog Port α} {rest : Console α} {s s' : Pl011} (here : At base depth p rest s)
    (moves : Pl011.Moves depth s s') : At base depth p rest s' := by
  cases here with
  | returned value => exact .returned value s'
  | waitsFull c next => exact .waitsFull c next s'
  | waitsEmpty next => exact .waitsEmpty next s'
  | clocking next => exact .clocking next s'
  | storing c next _ room =>
      -- the FIFO only empties by itself
      refine .storing c next s' ?_
      cases moves with
      | arrives => exact room
      | overruns => exact room
      | leaves _ waiting shape =>
          rw [shape, List.length_cons] at room
          exact Nat.lt_of_succ_lt room
  | loading next _ some_ =>
      refine .loading next s' ?_
      cases moves with
      | arrives c _ => exact List.append_ne_nil_of_right_ne_nil _ (List.cons_ne_nil c [])
      | overruns => exact some_
      | leaves => exact some_

/-- What came over the line was accepted in its order, all but the overruns. -/
structure Pl011.Tallied (s : Pl011) : Prop where
  among : s.accepted.Sublist s.arrived
  dropped : s.arrived.length = s.accepted.length + s.overruns

theorem Pl011.Tallied.all {s : Pl011} (tallied : s.Tallied) (none_ : s.overruns = 0) : s.accepted = s.arrived :=
  tallied.among.eq_of_length (by rw [tallied.dropped, none_, Nat.add_zero])

theorem Pl011.Tallied.moves {s s' : Pl011} (tallied : s.Tallied) (moves : Pl011.Moves depth s s') : s'.Tallied := by
  obtain ⟨among, dropped⟩ := tallied
  cases moves with
  | arrives c _ =>
      refine ⟨among.append (List.Sublist.refl [c]), ?_⟩
      simp only [List.length_append, dropped]
      omega
  | overruns c _ =>
      refine ⟨among.trans (List.sublist_append_left _ _), ?_⟩
      simp only [List.length_append, dropped, List.length_singleton, Nat.add_assoc]
  | leaves => exact ⟨among, dropped⟩

/-- Every byte is accounted for: what was accepted is what the program took and what
waits, what the program sent is what left and what waits. And the clock was read at
ticks that had passed, one after the other. -/
structure Accounts (deeds : List Deed) (s : Serial) : Prop where
  inputs : s.uart.accepted = received deeds ++ s.uart.rx
  outputs : emitted deeds = s.uart.sent ++ s.uart.tx
  clock : (readings deeds ++ [s.ticks]).Pairwise (· ≤ ·)
  lossless : s.uart.lost = 0
  tallied : s.uart.Tallied

theorem Accounts.moves {deeds : List Deed} {s s' : Serial} (accounts : Accounts deeds s)
    (moves : Serial.Moves depth s s') : Accounts deeds s' := by
  obtain ⟨inputs, outputs, clock, lossless, tallied⟩ := accounts
  cases moves with
  | uart next moves =>
      have still := tallied.moves moves
      cases moves with
      | arrives c room => exact ⟨by simp only [inputs, List.append_assoc], outputs, clock, lossless, still⟩
      | overruns => exact ⟨inputs, outputs, clock, lossless, still⟩
      | leaves c waiting shape =>
          refine ⟨inputs, ?_, clock, lossless, still⟩
          rw [outputs, shape, List.append_assoc]
          rfl
  | ticks =>
      refine ⟨inputs, outputs, ?_, lossless, tallied⟩
      rw [List.pairwise_append] at clock ⊢
      refine ⟨clock.1, List.pairwise_singleton _ _, fun a before b last => ?_⟩
      obtain rfl := List.mem_singleton.mp last
      exact Nat.le_succ_of_le (clock.2.2 a before s.ticks (List.mem_singleton.mpr rfl))

theorem Accounts.sends {deeds : List Deed} {s : Serial} (accounts : Accounts deeds s) (c : UInt8) :
    Accounts (deeds ++ [.sent c]) { s with uart := { s.uart with tx := s.uart.tx ++ [c] } } := by
  obtain ⟨inputs, outputs, clock, lossless, tallied⟩ := accounts
  refine ⟨?_, ?_, ?_, lossless, tallied.among, tallied.dropped⟩
  · simpa [received] using inputs
  · have more : emitted (deeds ++ [.sent c]) = emitted deeds ++ [c] := by simp [emitted]
    rw [more, outputs, List.append_assoc]
  · simpa [readings] using clock

theorem Accounts.takes {deeds : List Deed} {s : Serial} (accounts : Accounts deeds s) {c : UInt8}
    {waiting : List UInt8} (shape : s.uart.rx = c :: waiting) :
    Accounts (deeds ++ [.got c]) { s with uart := { s.uart with rx := waiting } } := by
  obtain ⟨inputs, outputs, clock, lossless, tallied⟩ := accounts
  refine ⟨?_, ?_, ?_, lossless, tallied.among, tallied.dropped⟩
  · rw [shape] at inputs
    simpa [received] using inputs
  · simpa [emitted] using outputs
  · simpa [readings] using clock

theorem Accounts.reads {deeds : List Deed} {s : Serial} (accounts : Accounts deeds s) :
    Accounts (deeds ++ [.read s.ticks]) s := by
  obtain ⟨inputs, outputs, clock, lossless, tallied⟩ := accounts
  refine ⟨?_, ?_, ?_, lossless, tallied.among, tallied.dropped⟩
  · simpa [received] using inputs
  · simpa [emitted] using outputs
  · have now : readings (deeds ++ [.read s.ticks]) = readings deeds ++ [s.ticks] := by simp [readings]
    rw [now, List.pairwise_append]
    refine ⟨clock, List.pairwise_singleton _ _, fun a member b last => ?_⟩
    obtain rfl := List.mem_singleton.mp last
    rcases List.mem_append.mp member with before | same
    · exact (List.pairwise_append.mp clock).2.2 a before s.ticks (List.mem_singleton.mpr rfl)
    · exact (List.mem_singleton.mp same).le

/-- The states that the driver and the device reach together. -/
def Served (base depth : Nat) (start : Console α) (x : Prog Port α × Serial) : Prop :=
  ∃ rest deeds, Console.Trace start deeds rest ∧ At base depth x.1 rest x.2.uart ∧ Accounts deeds x.2

theorem flagWord_full : ∀ busy rxfe txff rxff txfe : Bool,
    (flagWord busy rxfe txff rxff txfe &&& (1 <<< 5) ≠ 0 ↔ txff = true) ∧
    (flagWord busy rxfe txff rxff txfe &&& (1 <<< 4) ≠ 0 ↔ rxfe = true) := by decide

theorem flags_full (s : Pl011) : s.flags depth &&& (1 <<< 5) ≠ 0 ↔ ¬ s.tx.length < depth := by
  rw [Pl011.flags, (flagWord_full _ _ _ _ _).1, decide_eq_true_iff, Nat.not_lt]

theorem flags_empty (s : Pl011) : s.flags depth &&& (1 <<< 4) ≠ 0 ↔ s.rx = [] := by
  rw [Pl011.flags, (flagWord_full _ _ _ _ _).2, List.isEmpty_iff]

theorem load_flags (s : Serial) :
    (serial base depth).load s (.mmio (uart0Fr base)) = (s.uart.flags depth, s) := by
  simp only [serial, Serial.load, Pl011.load, if_true]

theorem load_data (s : Serial) (c : UInt8) (rest : List UInt8) (next : s.uart.rx = c :: rest) :
    (serial base depth).load s (.mmio (uart0Dr base)) =
      (c.toNat, { s with uart := { s.uart with rx := rest } }) := by
  have other : ¬ uart0Dr base = uart0Fr base := by
    rw [uart0Dr, uart0Fr]
    omega
  simp only [serial, Serial.load, Pl011.load, if_neg other, if_true, next]

theorem store_data (s : Serial) (c : UInt8) (room : s.uart.tx.length < depth) :
    (serial base depth).store s (.mmio (uart0Dr base)) c.toNat =
      { s with uart := { s.uart with tx := s.uart.tx ++ [c] } } := by
  simp only [serial, Serial.store, Pl011.store, if_true, if_pos room, UInt8.ofNat_toNat]

theorem Serial.Moves.at {p : Prog Port α} {rest : Console α} {s s' : Serial} (here : At base depth p rest s.uart)
    (moves : Serial.Moves depth s s') : At base depth p rest s'.uart := by
  cases moves with
  | uart next moves => exact here.moves moves
  | ticks => exact here

theorem Served.step {start : Console α} {x y : Prog Port α × Serial} (served : Served base depth start x)
    (step : Step (serial base depth) x y) : Served base depth start y := by
  obtain ⟨p, s⟩ := x
  obtain ⟨rest, deeds, trace, here, accounts⟩ := served
  cases step with
  | moved _ _ _ moves => exact ⟨rest, deeds, trace, moves.at here, accounts.moves moves⟩
  | loaded =>
      dsimp only at here
      cases here with
      | loading next _ some_ =>
          obtain ⟨c, waiting, shape⟩ := List.exists_cons_of_ne_nil some_
          rw [load_data s c waiting shape]
          dsimp only
          rw [UInt8.ofNat_toNat]
          exact ⟨next c, deeds ++ [.got c], trace.snoc (.getc c next), .between (next c) _, accounts.takes shape⟩
      | clocking next =>
          exact ⟨_, deeds ++ [.read s.ticks], trace.snoc (.time s.ticks next), .between _ _, accounts.reads⟩
  | stored =>
      dsimp only at here
      cases here with
      | storing c next _ room =>
          rw [store_data s c room]
          exact ⟨next, deeds ++ [.sent c], trace.snoc (.putc c next), .between next _, accounts.sends c⟩
  | waited =>
      dsimp only at here
      cases here with
      | waitsFull c next =>
          rw [load_flags s]
          exact ⟨.putc c next, deeds, trace, .waitsFull c next s.uart, accounts⟩
      | waitsEmpty next =>
          rw [load_flags s]
          exact ⟨.getc next, deeds, trace, .waitsEmpty next s.uart, accounts⟩
  | passed _ _ _ _ ready =>
      dsimp only at here
      cases here with
      | waitsFull c next =>
          rw [load_flags s] at ready ⊢
          have room : s.uart.tx.length < depth := by
            by_contra full
            exact (decide_eq_false_iff_not.mp ready) ((flags_full s.uart).mpr full)
          exact ⟨.putc c next, deeds, trace, .storing c next s.uart room, accounts⟩
      | waitsEmpty next =>
          rw [load_flags s] at ready ⊢
          have some_ : s.uart.rx ≠ [] := fun empty =>
            (decide_eq_false_iff_not.mp ready) ((flags_empty s.uart).mpr empty)
          exact ⟨.getc next, deeds, trace, .loading next s.uart some_, accounts⟩

theorem served_start (start : Console α) : Served base depth start (start.compile base, Serial.idle) :=
  ⟨start, [], .here start, .between start _, rfl, rfl, List.pairwise_singleton _ _, rfl, List.Sublist.refl [], rfl⟩

theorem served_run {start : Console α} {y : Prog Port α × Serial}
    (run : Runs (serial base depth) (start.compile base, Serial.idle) y) : Served base depth start y :=
  run.keeps (fun _ _ served step => served.step step) (served_start start)

/-- Whatever the interleaving, the bytes a program of `uart_getc` and `uart_putc` has
taken are the first that the FIFO accepted, and it accepted all but the overruns; the
bytes it has sent are those that left and those that wait, in order; no access hit a
full or an empty FIFO; and `get_time` gave ticks that had passed, in their order. -/
theorem console_exactly_once (base depth : Nat) (start : Console α) (p : Prog Port α) (s : Serial)
    (run : Runs (serial base depth) (start.compile base, Serial.idle) (p, s)) :
    ∃ rest deeds, Console.Trace start deeds rest ∧ s.uart.accepted = received deeds ++ s.uart.rx ∧
      s.uart.accepted.Sublist s.uart.arrived ∧ s.uart.arrived.length = s.uart.accepted.length + s.uart.overruns ∧
      emitted deeds = s.uart.sent ++ s.uart.tx ∧ s.uart.lost = 0 ∧
      (readings deeds ++ [s.ticks]).Pairwise (· ≤ ·) ∧ ∀ value, p = .done value → rest = .ret value := by
  obtain ⟨rest, deeds, trace, here, inputs, outputs, clock, lossless, among, dropped⟩ := served_run run
  refine ⟨rest, deeds, trace, inputs, among, dropped, outputs, lossless, clock, ?_⟩
  rintro value rfl
  cases here
  rfl

def echoOnce : Console Unit := .getc fun c => .putc c (.ret ())

/-- A FIFO of one byte, which a second one overruns. -/
def overrunOnce : Serial := ⟨⟨[], [], [65], [65], 0, [65, 66], 1⟩, 1⟩

/-- A wait for the byte, the byte and one too many, a tick, and the byte again on the
other line. -/
theorem echoOnce_runs : Runs (serial 0x3F201000 1) (echoOnce.compile 0x3F201000, Serial.idle)
    (.done (), overrunOnce) := by
  have came : Serial.Moves 1 Serial.idle ⟨⟨[65], [], [65], [], 0, [65], 0⟩, 0⟩ :=
    .uart Serial.idle _ (.arrives Pl011.idle 65 (by decide))
  have dropped : Serial.Moves 1 ⟨⟨[65], [], [65], [], 0, [65], 0⟩, 0⟩ ⟨⟨[65], [], [65], [], 0, [65, 66], 1⟩, 0⟩ :=
    .uart ⟨⟨[65], [], [65], [], 0, [65], 0⟩, 0⟩ _ (.overruns ⟨[65], [], [65], [], 0, [65], 0⟩ 66 (by decide))
  have went : Serial.Moves 1 ⟨⟨[], [65], [65], [], 0, [65, 66], 1⟩, 1⟩ overrunOnce :=
    .uart ⟨⟨[], [65], [65], [], 0, [65, 66], 1⟩, 1⟩ _ (.leaves ⟨[], [65], [65], [], 0, [65, 66], 1⟩ 65 [] rfl)
  refine .head (.waited _ _ _ _ (by decide)) ?_
  refine .head (.moved _ _ _ came) ?_
  refine .head (.moved _ _ _ dropped) ?_
  refine .head (.passed _ _ _ _ (by decide)) ?_
  refine .head (.loaded _ _ _) ?_
  refine .head (.passed _ _ _ _ (by decide)) ?_
  refine .head (.stored _ _ _ _) ?_
  refine .head (.moved _ _ _ (.ticks _)) ?_
  exact .single (.moved _ _ _ went)

theorem console_exactly_once_echo : ∃ rest deeds, Console.Trace echoOnce deeds rest ∧
    [65] = received deeds ++ [] ∧ ([65] : List UInt8).Sublist [65, 66] ∧
    ([65, 66] : List UInt8).length = ([65] : List UInt8).length + 1 ∧
    emitted deeds = [65] ++ [] ∧ 0 = 0 ∧ (readings deeds ++ [1]).Pairwise (· ≤ ·) ∧
    ∀ value, (Prog.done () : Prog Port Unit) = .done value → rest = .ret value :=
  console_exactly_once 0x3F201000 1 echoOnce (.done ()) overrunOnce echoOnce_runs

section Progress

/-- The transmit FIFO drains until there is room. -/
theorem drains (positive : 0 < depth) (tx : List UInt8) (s : Serial) (queued : s.uart.tx = tx) :
    ∃ s', (serial base depth).Later s s' ∧ s'.uart.tx.length < depth ∧ s'.uart.rx = s.uart.rx ∧
      s'.uart.accepted = s.uart.accepted ∧ s'.uart.sent ++ s'.uart.tx = s.uart.sent ++ s.uart.tx ∧
      s'.ticks = s.ticks := by
  induction tx generalizing s with
  | nil => exact ⟨s, .refl, by rw [queued]; exact positive, rfl, rfl, rfl, rfl⟩
  | cons c rest ih =>
      obtain ⟨s', moves, room, rx, accepted, sent, ticks⟩ :=
        ih { s with uart := { s.uart with tx := rest, sent := s.uart.sent ++ [c] } } rfl
      refine ⟨s', .head (.uart s _ (.leaves s.uart c rest queued)) moves, room, rx, accepted, ?_, ticks⟩
      rw [sent, queued, List.append_assoc]
      rfl

/-- A full FIFO shifts a byte out, so a wait for room ends. -/
theorem putc_completes (positive : 0 < depth) {p : Prog Port α} {s : Serial} {c : UInt8} {next : Console α}
    (here : At base depth p (.putc c next) s.uart) :
    ∃ s', Runs (serial base depth) (p, s) (next.compile base, s') ∧ s'.uart.rx = s.uart.rx ∧
      s'.uart.accepted = s.uart.accepted ∧ s'.uart.sent ++ s'.uart.tx = s.uart.sent ++ s.uart.tx ++ [c] ∧
      s'.ticks = s.ticks := by
  have stores : ∀ r : Serial, r.uart.tx.length < depth → Step (serial base depth)
      (.store (.mmio (uart0Dr base)) c.toNat (next.compile base), r)
      (next.compile base, { r with uart := { r.uart with tx := r.uart.tx ++ [c] } }) := by
    intro r room
    rw [← store_data r c room]
    exact .stored _ _ _ r
  have passes : ∀ r : Serial, r.uart.tx.length < depth → Runs (serial base depth)
      (.spin (.mmio (uart0Fr base)) (fun flags => flags &&& (1 <<< 5) ≠ 0)
        (.store (.mmio (uart0Dr base)) c.toNat (next.compile base)), r)
      (next.compile base, { r with uart := { r.uart with tx := r.uart.tx ++ [c] } }) := by
    intro r room
    have ready : decide (((serial base depth).load r (.mmio (uart0Fr base))).1 &&& (1 <<< 5) ≠ 0) = false := by
      rw [load_flags r]
      exact decide_eq_false fun full => (flags_full r.uart).mp full room
    have pass := Step.passed (.mmio (uart0Fr base)) (fun flags => decide (flags &&& (1 <<< 5) ≠ 0))
      (.store (.mmio (uart0Dr base)) c.toNat (next.compile base)) r ready
    rw [load_flags r] at pass
    exact .head pass (.single (stores r room))
  cases here with
  | storing _ _ _ room => exact ⟨_, .single (stores s room), rfl, rfl, (List.append_assoc _ _ _).symm, rfl⟩
  | waitsFull =>
      obtain ⟨r, moves, room, rx, accepted, sent, ticks⟩ := drains positive s.uart.tx s rfl
      refine ⟨_, (runs_of_later _ moves).trans (passes r room), rx, accepted, ?_, ticks⟩
      rw [← sent, List.append_assoc]

/-- A wait for a byte ends as soon as one is there. -/
theorem getc_completes {p : Prog Port α} {s : Serial} {next : UInt8 → Console α} {c : UInt8}
    {waiting : List UInt8} (here : At base depth p (.getc next) s.uart) (shape : s.uart.rx = c :: waiting) :
    Runs (serial base depth) (p, s)
      ((next c).compile base, { s with uart := { s.uart with rx := waiting } }) := by
  have loads : Step (serial base depth)
      (.load (.mmio (uart0Dr base)) fun data => (next (UInt8.ofNat data)).compile base, s)
      ((next c).compile base, { s with uart := { s.uart with rx := waiting } }) := by
    have load := @Step.loaded Port α Serial (serial base depth) (.mmio (uart0Dr base))
      (fun data => (next (UInt8.ofNat data)).compile base) s
    rw [load_data s c waiting shape] at load
    dsimp only at load
    rw [UInt8.ofNat_toNat] at load
    exact load
  cases here with
  | loading => exact .single loads
  | waitsEmpty =>
      have ready : decide (((serial base depth).load s (.mmio (uart0Fr base))).1 &&& (1 <<< 4) ≠ 0) = false := by
        rw [load_flags s]
        refine decide_eq_false fun empty => ?_
        rw [(flags_empty s.uart).mp empty] at shape
        contradiction
      have pass := Step.passed (.mmio (uart0Fr base)) (fun flags => decide (flags &&& (1 <<< 4) ≠ 0))
        (.load (.mmio (uart0Dr base)) fun data => (next (UInt8.ofNat data)).compile base) s ready
      rw [load_flags s] at pass
      exact .head pass (.single loads)

theorem ticks_later (n : Nat) (s : Serial) :
    (serial base depth).Later s { s with ticks := s.ticks + n } := by
  induction n with
  | zero => exact .refl
  | succ n ih => exact ih.tail (.ticks _)

/-- From wherever the driver is, the rest of the program can run on the bytes that
wait and any that arrive later, and read the clock at any ticks from now on. -/
theorem Console.Trace.continues (positive : 0 < depth) {rest final : Console α} {deeds : List Deed}
    (trace : Console.Trace rest deeds final) (p : Prog Port α) (s : Serial) (later : List UInt8)
    (here : At base depth p rest s.uart) (typed : received deeds <+: s.uart.rx ++ later)
    (clock : (s.ticks :: readings deeds).Pairwise (· ≤ ·)) :
    ∃ p' s' used, Runs (serial base depth) (p, s) (p', s') ∧ At base depth p' final s'.uart ∧ used <+: later ∧
      s'.uart.accepted = s.uart.accepted ++ used ∧
      s'.uart.sent ++ s'.uart.tx = s.uart.sent ++ s.uart.tx ++ emitted deeds := by
  induction trace generalizing p s later with
  | here => exact ⟨p, s, [], .refl, here, List.nil_prefix, (List.append_nil _).symm, (List.append_nil _).symm⟩
  | cons first rest final deed deeds does _ ih =>
      cases does with
      | putc c =>
          obtain ⟨r, ran, rx, accepted, sent, ticks⟩ := putc_completes positive here
          obtain ⟨p', s', used, runs, reached, among, inputs, outputs⟩ :=
            ih _ r later (.between rest r.uart) (by rw [rx]; exact typed) (by rw [ticks]; exact clock)
          refine ⟨p', s', used, ran.trans runs, reached, among, by rw [inputs, accepted], ?_⟩
          rw [outputs, sent, List.append_assoc]
          rfl
      | time tick next =>
          have order := List.pairwise_cons.mp clock
          have ahead : s.ticks ≤ tick := order.1 tick List.mem_cons_self
          have waits : Runs (serial base depth) (p, s) (p, { s with ticks := tick }) := by
            have later := @runs_of_later Port α Serial (serial base depth) p s _ (ticks_later (tick - s.ticks) s)
            rwa [Nat.add_sub_cancel' ahead] at later
          cases here with
          | clocking =>
              have load : Step (serial base depth)
                  (.load .time fun time => (next time).compile base, { s with ticks := tick })
                  ((next (tick % 2 ^ 64)).compile base, { s with ticks := tick }) := .loaded _ _ _
              obtain ⟨p', s', used, runs, result⟩ :=
                ih _ { s with ticks := tick } later (.between _ _) typed order.2
              exact ⟨p', s', used, (waits.tail load).trans runs, result⟩
      | getc c next =>
          cases shape : s.uart.rx with
          | cons d waiting =>
              rw [shape, received_got, List.cons_append] at typed
              obtain ⟨rfl, fewer⟩ := List.cons_prefix_cons.mp typed
              obtain ⟨p', s', used, runs, result⟩ :=
                ih _ { s with uart := { s.uart with rx := waiting } } later (.between (next c) _) fewer clock
              exact ⟨p', s', used, (getc_completes here shape).trans runs, result⟩
          | nil =>
              -- nothing waits: the byte has to arrive first
              rw [shape, List.nil_append] at typed
              obtain ⟨tail, rfl⟩ := typed
              have room : s.uart.rx.length < depth := by
                rw [shape]
                exact positive
              have arrives := Serial.Moves.uart s _ (.arrives s.uart c room)
              obtain ⟨p', s', used, runs, reached, among, inputs, outputs⟩ :=
                ih _ { s with uart := { s.uart with
                  rx := [], accepted := s.uart.accepted ++ [c], arrived := s.uart.arrived ++ [c] } }
                  (received deeds ++ tail) (.between (next c) _) (List.prefix_append _ tail) clock
              have taken := getc_completes (arrives.at here) (show s.uart.rx ++ [c] = c :: [] by rw [shape]; rfl)
              refine ⟨p', s', c :: used, .head (.moved _ _ _ arrives) (taken.trans runs), reached,
                List.cons_prefix_cons.mpr ⟨rfl, among⟩, ?_, outputs⟩
              rw [inputs, List.append_assoc]
              rfl

end Progress

/-- No interleaving leads into a wait that cannot end: whatever the program would do
next with the bytes that wait, some that arrive later, and the clock as it goes on,
it can still do. -/
theorem console_never_blocks (base depth : Nat) (positive : 0 < depth) (start : Console α) (p : Prog Port α)
    (s : Serial) (run : Runs (serial base depth) (start.compile base, Serial.idle) (p, s)) :
    ∃ rest done, Console.Trace start done rest ∧ At base depth p rest s.uart ∧
      ∀ final deeds later, Console.Trace rest deeds final → received deeds <+: s.uart.rx ++ later →
        (s.ticks :: readings deeds).Pairwise (· ≤ ·) →
        ∃ p' s' used, Runs (serial base depth) (p, s) (p', s') ∧ At base depth p' final s'.uart ∧
          used <+: later ∧ s'.uart.accepted = s.uart.accepted ++ used ∧
          s'.uart.sent ++ s'.uart.tx = s.uart.sent ++ s.uart.tx ++ emitted deeds := by
  obtain ⟨rest, done, trace, here, _⟩ := served_run run
  exact ⟨rest, done, trace, here, fun final deeds later going typed clock =>
    going.continues positive p s later here typed clock⟩

theorem console_never_blocks_echo : ∃ rest done, Console.Trace echoOnce done rest ∧
    At 0x3F201000 16 (echoOnce.compile 0x3F201000) rest Pl011.idle ∧
    ∀ final deeds later, Console.Trace rest deeds final → received deeds <+: [] ++ later →
      (0 :: readings deeds).Pairwise (· ≤ ·) →
      ∃ p' s' used, Runs (serial 0x3F201000 16) (echoOnce.compile 0x3F201000, Serial.idle) (p', s') ∧
        At 0x3F201000 16 p' final s'.uart ∧ used <+: later ∧ s'.uart.accepted = [] ++ used ∧
        s'.uart.sent ++ s'.uart.tx = [] ++ [] ++ emitted deeds :=
  console_never_blocks 0x3F201000 16 (by decide) echoOnce (echoOnce.compile 0x3F201000) Serial.idle
    (.single (.waited _ _ _ _ (by decide)))

end KehindeKernel
