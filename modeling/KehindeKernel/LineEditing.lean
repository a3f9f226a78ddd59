import KehindeKernel.ReadLine
import KehindeKernel.Lib.Terminal

/-!
Line editing against its reference, in the buffer `read_line` is given. DEL on
an empty line falls through to the branch for printable bytes and is stored, so
the buffer can be the edited line with one DEL in front of it. The reference
counts the DELs that reach an empty line; the two agree exactly when that count
is even once the line ends.
-/

namespace KehindeKernel

open Outcome Bytes Framing Terminal

/-- What `read_line` leaves: the buffer, its result, and what it sent. -/
structure LineBuffer where
  buf : List UInt8
  i : Nat
  echo : List UInt8
  deriving DecidableEq, Repr

/-- `read_line` on the bytes of `buf`, with the stream position it leaves. A
byte that never arrives is waited for. -/
def readLineInto (uart : Nat → Option UInt8) (max : Nat) :
    Nat → Nat → List UInt8 → Nat → List UInt8 → Run (LineBuffer × Nat)
  | 0, _, _, _, _ => throw .hang
  | trips + 1, pos, buf, i, echo =>
      if i < max - 1 then
        match uart pos with
        | none => throw .hang
        | some c =>
            if c = 13 ∨ c = 10 then do
              let buf ← storeAt buf i 0
              pure (⟨buf, i, echo ++ newline⟩, pos + 1)
            else if (c = 127 ∨ c = 8) ∧ i > 0 then
              readLineInto uart max trips (pos + 1) buf (i - 1) (echo ++ [8, 32, 8])
            else if c ≥ 32 then do
              let buf ← storeAt buf i c
              readLineInto uart max trips (pos + 1) buf (i + 1) (echo ++ [c])
            else readLineInto uart max trips (pos + 1) buf i echo
      else do
        let buf ← storeAt buf i 0
        pure (⟨buf, i, echo⟩, pos)

/-- The reference edits a stack of bytes. -/
def editStack (stack : List UInt8) (c : UInt8) : List UInt8 :=
  if c = 8 ∨ c = 127 then stack.dropLast
  else if c ≥ 32 then stack ++ [c]
  else stack

def referenceLine : List UInt8 → List UInt8 → List UInt8
  | stack, [] => stack
  | stack, c :: rest => if c = 13 ∨ c = 10 then stack else referenceLine (editStack stack c) rest

def consumed (uart : Nat → Option UInt8) (start next : Nat) : List UInt8 :=
  (List.range (next - start)).filterMap fun k => uart (start + k)

/-- The string in the buffer is the line as typed and edited, and is what the
terminal shows. -/
structure EditedLine (max : Nat) (typed : List UInt8) (line : LineBuffer) : Prop where
  text : Terminated line.buf (referenceLine [] typed)
  length : line.i = (referenceLine [] typed).length
  clean : ∀ c ∈ line.buf.take line.i, c ≥ 32 ∧ c ≠ 127
  fits : line.i < max ∧ line.buf.length = max
  visible : ∃ k, (display line.echo).cells = line.buf.take line.i ++ List.replicate k space

/-- `read_line(buf, max)` called at `start` returns once a CR or LF has come, and
whatever it returns is the edited line. -/
structure EditsLines (uart : Nat → Option UInt8) (start max : Nat) (buf : List UInt8) : Prop where
  returns : ∀ n c, (∀ k < n, (uart (start + k)).isSome) → uart (start + n) = some c → c = 13 ∨ c = 10 →
    ∃ trips out, readLineInto uart max trips start buf 0 [] = .ok out
  edited : ∀ trips line next, readLineInto uart max trips start buf 0 [] = .ok (line, next) →
    EditedLine max (consumed uart start next) line

/-- The edited line and the DELs that have reached it empty since the last
backspace that did. -/
structure RefLine where
  stack : List UInt8
  dels : Nat
  deriving DecidableEq, Repr

def refStep (r : RefLine) (c : UInt8) : RefLine where
  stack := editStack r.stack c
  dels := if r.stack ≠ [] then r.dels else if c = 127 then r.dels + 1 else if c = 8 then 0 else r.dels

/-- The reference on the same stream. An odd DEL takes a place in the buffer. -/
def refReader (max : Nat) : Reader UInt8 RefLine where
  init := ⟨[], 0⟩
  step := refStep
  ends c := c = 13 ∨ c = 10
  finish r := r
  full r := ¬ r.dels % 2 + r.stack.length < max - 1

def DelsPaired (uart : Nat → Option UInt8) (start max : Nat) : Prop :=
  ∀ r next, (refReader max).Call uart start r next → r.dels % 2 = 0

/-- What `read_line` holds where the reference holds `r`. -/
structure Edits (line : LineInput) (r : RefLine) : Prop where
  buf : line.buf = List.replicate (r.dels % 2) 127 ++ r.stack
  clean : ∀ c ∈ r.stack, c ≥ 32 ∧ c ≠ 127
  shows_ : Terminal.Shows (display line.echo) line.buf

structure Leaves (line : LineInput) (r : RefLine) : Prop where
  buf : line.buf = List.replicate (r.dels % 2) 127 ++ r.stack
  clean : ∀ c ∈ r.stack, c ≥ 32 ∧ c ≠ 127
  visible : ∃ k, (display line.echo).cells = line.buf ++ List.replicate k space

theorem editStack_clean {stack : List UInt8} (clean : ∀ c ∈ stack, c ≥ 32 ∧ c ≠ 127) (c : UInt8) :
    ∀ d ∈ editStack stack c, d ≥ 32 ∧ d ≠ 127 := by
  intro d member
  rw [editStack] at member
  split at member
  next pops => exact clean d (List.dropLast_subset stack member)
  next keeps =>
    split at member
    next pushes =>
      rcases List.mem_append.mp member with old | new
      · exact clean d old
      · rw [List.mem_singleton.mp new]
        exact ⟨pushes, fun del => keeps (Or.inr del)⟩
    next => exact clean d member

theorem stray_or_not (n : Nat) :
    n % 2 = 0 ∧ List.replicate (n % 2) (127 : UInt8) = [] ∨
    n % 2 = 1 ∧ List.replicate (n % 2) (127 : UInt8) = [127] := by
  rcases Nat.mod_two_eq_zero_or_one n with even | odd
  · rw [even]
    exact Or.inl ⟨rfl, rfl⟩
  · rw [odd]
    exact Or.inr ⟨rfl, rfl⟩

theorem edits_pop {line : LineInput} {r : RefLine} (edits : Edits line r) (some_ : line.buf ≠ [])
    {c : UInt8} (pops : c = 127 ∨ c = 8) :
    (refStep r c).stack = r.stack.dropLast ∧
      line.buf.dropLast = List.replicate ((refStep r c).dels % 2) 127 ++ r.stack.dropLast := by
  have popped : editStack r.stack c = r.stack.dropLast := if_pos pops.symm
  refine ⟨popped, ?_⟩
  rw [edits.buf]
  by_cases empty : r.stack = []
  · -- the only byte to take away is the stray DEL
    obtain ⟨even, none⟩ | ⟨odd, stray⟩ := stray_or_not r.dels
    · rw [edits.buf, none, empty] at some_
      exact absurd rfl some_
    · have paired : (refStep r c).dels % 2 = 0 := by
        simp only [refStep, empty, ne_eq, not_true_eq_false, if_false]
        rcases pops with rfl | rfl
        · rw [if_pos rfl]
          omega
        · rw [if_neg (by decide), if_pos rfl]
      rw [stray, paired, empty]
      rfl
  · have kept : (refStep r c).dels = r.dels := if_pos empty
    rw [kept, List.dropLast_append_of_ne_nil empty]

theorem edits_empty {line : LineInput} {r : RefLine} (edits : Edits line r) (empty : line.buf = []) :
    r.stack = [] ∧ r.dels % 2 = 0 := by
  have buf := edits.buf
  rw [empty] at buf
  obtain ⟨stray, stack⟩ := List.append_eq_nil_iff.mp buf.symm
  exact ⟨stack, List.replicate_eq_nil_iff _ |>.mp stray⟩

/-- A byte that is neither an erasing one nor a DEL on the empty line. -/
theorem refStep_dels (r : RefLine) (c : UInt8) (back : c ≠ 8) (del : c ≠ 127) :
    (refStep r c).dels = r.dels := by
  simp only [refStep, if_neg back, if_neg del, ite_self]

theorem edits_step {line : LineInput} {r : RefLine} (edits : Edits line r) (c : UInt8)
    (goes : ¬ (c = 13 ∨ c = 10)) : Edits (editByte line c) (refStep r c) := by
  obtain ⟨home, down⟩ := not_or.mp goes
  have clean := editStack_clean edits.clean c
  rw [editByte]
  -- a byte pops, is printable, or is ignored
  by_cases pops : (c = 127 ∨ c = 8) ∧ line.buf.length > 0
  · have some_ : line.buf ≠ [] := List.ne_nil_of_length_pos pops.2
    obtain ⟨stack, buf⟩ := edits_pop edits some_ pops.1
    rw [if_pos pops]
    refine ⟨?_, clean, ?_⟩
    · rw [stack]
      exact buf
    · rw [display_append]
      exact edits.shows_.erase some_
  · rw [if_neg pops]
    by_cases printable : c ≥ 32
    · have back : c ≠ 8 := by
        rintro rfl
        exact absurd printable (by decide)
      rw [if_pos printable]
      refine ⟨?_, clean, ?_⟩
      · by_cases del : c = 127
        · -- it is stored because the line is empty
          have empty : line.buf = [] := by
            by_contra some_
            exact pops ⟨Or.inl del, List.length_pos_of_ne_nil some_⟩
          obtain ⟨stack, even⟩ := edits_empty edits empty
          have stray : (refStep r c).dels % 2 = 1 := by
            simp only [refStep, stack, ne_eq, not_true_eq_false, if_false, if_pos del]
            omega
          have popped : (refStep r c).stack = [] := by
            simp only [refStep, editStack, del, or_true, if_true, stack, List.dropLast_nil]
          rw [stray, popped, empty, del]
          rfl
        · have pushed : (refStep r c).stack = r.stack ++ [c] := by
            simp only [refStep, editStack, if_neg (not_or.mpr ⟨back, del⟩), if_pos printable]
          rw [refStep_dels r c back del, pushed, ← List.append_assoc, ← edits.buf]
      · rw [display_append]
        exact edits.shows_.type back home down
    · have del : c ≠ 127 := by
        rintro rfl
        exact printable (by decide)
      rw [if_neg printable]
      refine ⟨?_, clean, edits.shows_⟩
      by_cases back : c = 8
      · have empty : line.buf = [] := by
          by_contra some_
          exact pops ⟨Or.inr back, List.length_pos_of_ne_nil some_⟩
        obtain ⟨stack, _⟩ := edits_empty edits empty
        simp only [refStep, editStack, back, true_or, if_true, stack, List.dropLast_nil, ne_eq,
          not_true_eq_false, if_false, empty]
        rfl
      · have kept : (refStep r c).stack = r.stack := by
          simp only [refStep, editStack, if_neg (not_or.mpr ⟨back, del⟩), if_neg printable]
        rw [refStep_dels r c back del, kept]
        exact edits.buf

theorem readers_agree (max : Nat) : Agree (lineReader max) (refReader max) Edits Leaves where
  init := ⟨rfl, fun _ member => absurd member List.not_mem_nil, shows_empty⟩
  step := fun _ _ c goes edits => edits_step edits c (of_decide_eq_false goes)
  stop := fun _ _ edits => ⟨edits.buf, edits.clean, edits.shows_.cells⟩
  finish := fun line r edits => by
    refine ⟨edits.buf, edits.clean, ?_⟩
    simp only [lineReader, newline, display_append]
    exact edits.shows_.cells
  ends := fun _ => rfl
  full := fun line r edits => by
    have length := congrArg List.length edits.buf
    rw [List.length_append, List.length_replicate] at length
    simp only [lineReader, refReader, length]

/-- The reference folds the bytes of a segment, whatever follows their end. -/
theorem referenceLine_quiet (stack front rest : List UInt8) (quiet : ∀ c ∈ front, ¬ (c = 13 ∨ c = 10)) :
    referenceLine stack (front ++ rest) = referenceLine (front.foldl editStack stack) rest := by
  induction front generalizing stack with
  | nil => rfl
  | cons c front ih =>
      rw [List.cons_append, referenceLine, if_neg (quiet c List.mem_cons_self), List.foldl_cons]
      exact ih _ fun d member => quiet d (List.mem_cons_of_mem c member)

theorem consumed_succ (uart : Nat → Option UInt8) (start n : Nat) (c : UInt8)
    (here : uart (start + n) = some c) :
    consumed uart start (start + (n + 1)) = consumed uart start (start + n) ++ [c] := by
  have last : [n].filterMap (fun k => uart (start + k)) = [c] := by
    simp only [List.filterMap_cons, here, List.filterMap_nil]
  rw [consumed, consumed, Nat.add_sub_cancel_left, Nat.add_sub_cancel_left, List.range_succ,
    List.filterMap_append, last]

theorem consumed_quiet (uart : Nat → Option UInt8) (max start n : Nat)
    (quiet : Quiet (refReader max) uart start n) :
    (∀ c ∈ consumed uart start (start + n), ¬ (c = 13 ∨ c = 10)) ∧
    (fed (refReader max) uart start n).stack = (consumed uart start (start + n)).foldl editStack [] := by
  induction n with
  | zero =>
      have none : consumed uart start (start + 0) = [] := by
        rw [consumed, Nat.add_sub_cancel_left]
        rfl
      rw [none]
      exact ⟨fun _ member => absurd member List.not_mem_nil, rfl⟩
  | succ n ih =>
      obtain ⟨plain, stack⟩ := ih (quiet.mono (Nat.le_succ n))
      obtain ⟨c, here, goes⟩ := quiet n (Nat.lt_succ_self n)
      rw [consumed_succ uart start n c here, List.foldl_append, ← stack, fed_succ here]
      refine ⟨fun d member => ?_, rfl⟩
      rcases List.mem_append.mp member with old | new
      · exact plain d old
      · rw [List.mem_singleton.mp new]
        exact of_decide_eq_false goes

theorem refReader_folds (uart : Nat → Option UInt8) (max start next : Nat) (r : RefLine)
    (call : (refReader max).Call uart start r next) : r.stack = referenceLine [] (consumed uart start next) := by
  cases (call_stopped start r next).mp call with
  | full n quiet _ _ same place =>
      obtain ⟨plain, stack⟩ := consumed_quiet uart max start n quiet
      have folded := referenceLine_quiet [] _ [] plain
      rw [List.append_nil, ← stack, ← same] at folded
      rw [place, folded]
      rfl
  | ended n quiet _ ends same place =>
      obtain ⟨plain, stack⟩ := consumed_quiet uart max start n quiet
      obtain ⟨c, here, stops⟩ := ends
      have folded := referenceLine_quiet [] _ [c] plain
      rw [← stack] at folded
      rw [place, Nat.add_assoc, consumed_succ uart start n c here, folded, referenceLine,
        if_pos (of_decide_eq_true stops), same]
      rfl

/-- The loop on the buffer is the loop on the bytes stored so far. -/
theorem readLineInto_spec (uart : Nat → Option UInt8) (max trips pos : Nat) (buf room echo : List UInt8)
    (sized : buf.length + room.length = max) (inside : buf.length < max) :
    (readLine uart max trips pos ⟨buf, echo⟩ = none ∧
      readLineInto uart max trips pos (buf ++ room) buf.length echo = .error .hang) ∨
    ∃ line next rest, readLine uart max trips pos ⟨buf, echo⟩ = some (line, next) ∧
      readLineInto uart max trips pos (buf ++ room) buf.length echo =
        .ok (⟨line.buf ++ 0 :: rest, line.buf.length, line.echo⟩, next) ∧
      (line.buf ++ 0 :: rest).length = max := by
  induction trips generalizing pos buf room echo with
  | zero => exact Or.inl ⟨rfl, rfl⟩
  | succ trips ih =>
      -- one place stays free for the NUL, so each store is inside
      obtain ⟨old, room, rfl⟩ : ∃ old later, room = old :: later := by
        cases room with
        | nil =>
            rw [List.length_nil] at sized
            omega
        | cons old later => exact ⟨old, later, rfl⟩
      rw [List.length_cons] at sized
      have full : (buf ++ 0 :: room).length = max := by
        rw [List.length_append, List.length_cons]
        exact sized
      rw [readLine, readLineInto, storeAt_next, ok_bind]
      by_cases more : buf.length < max - 1
      · rw [if_pos more, if_pos more]
        cases uart pos with
        | none => exact Or.inl ⟨rfl, rfl⟩
        | some c =>
            dsimp only
            by_cases stop : c = 13 ∨ c = 10
            · rw [if_pos stop, if_pos stop]
              exact Or.inr ⟨_, _, room, rfl, rfl, full⟩
            · rw [if_neg stop, if_neg stop]
              by_cases pops : (c = 127 ∨ c = 8) ∧ buf.length > 0
              · rw [if_pos pops, if_pos pops]
                -- the popped byte goes back to the room
                obtain ⟨front, last, rfl⟩ : ∃ front last, buf = front ++ [last] :=
                  have some_ := List.ne_nil_of_length_pos pops.2
                  ⟨buf.dropLast, buf.getLast some_, (List.dropLast_append_getLast some_).symm⟩
                rw [List.length_append, List.length_singleton] at sized inside
                have later := ih (pos + 1) front (last :: old :: room) (echo ++ [8, 32, 8])
                  (by simp only [List.length_cons]; omega) (by omega)
                rw [List.dropLast_concat, List.length_append, List.length_singleton, Nat.add_sub_cancel,
                  List.append_assoc]
                exact later
              · rw [if_neg pops, if_neg pops]
                by_cases printable : c ≥ 32
                · rw [if_pos printable, if_pos printable, storeAt_next, ok_bind]
                  have later := ih (pos + 1) (buf ++ [c]) room (echo ++ [c])
                    (by rw [List.length_append, List.length_singleton]; omega)
                    (by rw [List.length_append, List.length_singleton]; omega)
                  rw [List.length_append, List.length_singleton, List.append_assoc] at later
                  exact later
                · rw [if_neg printable, if_neg printable]
                  exact ih (pos + 1) buf (old :: room) echo (by rw [List.length_cons]; exact sized) inside
      · rw [if_neg more, if_neg more]
        exact Or.inr ⟨_, _, room, rfl, rfl, full⟩

section Calls

variable {uart : Nat → Option UInt8} {start max : Nat} {buf : List UInt8}

theorem readLineInto_of_call (positive : 1 ≤ max) (sized : buf.length = max) {line : LineInput} {next : Nat}
    (call : (lineReader max).Call uart start line next) :
    ∃ trips rest, readLineInto uart max trips start buf 0 [] =
      .ok (⟨line.buf ++ 0 :: rest, line.buf.length, line.echo⟩, next) := by
  obtain ⟨trips, returned⟩ := call
  rw [← readLine_eq] at returned
  rcases readLineInto_spec uart max trips start [] buf [] (by simpa using sized) positive with
    ⟨waits, _⟩ | ⟨line', next', rest, known, done, _⟩
  · exact absurd (returned.symm.trans waits) (Option.some_ne_none _)
  · obtain ⟨rfl, rfl⟩ := Prod.mk.inj (Option.some.inj (returned.symm.trans known))
    exact ⟨trips, rest, done⟩

theorem call_of_readLineInto (positive : 1 ≤ max) (sized : buf.length = max) {trips next : Nat}
    {out : LineBuffer} (returned : readLineInto uart max trips start buf 0 [] = .ok (out, next)) :
    ∃ line rest, (lineReader max).Call uart start line next ∧
      out = ⟨line.buf ++ 0 :: rest, line.buf.length, line.echo⟩ ∧ (line.buf ++ 0 :: rest).length = max := by
  rcases readLineInto_spec uart max trips start [] buf [] (by simpa using sized) positive with
    ⟨_, waits⟩ | ⟨line, next', rest, known, done, full⟩
  · exact absurd (returned.symm.trans waits) (fun same => by cases same)
  · obtain ⟨same, place⟩ := Prod.mk.inj (Except.ok.inj (returned.symm.trans done))
    refine ⟨line, rest, ⟨trips, ?_⟩, same, full⟩
    rw [place, ← known, readLine_eq]
    rfl

theorem call_returns {n : Nat} {c : UInt8} (arrived : ∀ k < n, (uart (start + k)).isSome)
    (here : uart (start + n) = some c) (stops : c = 13 ∨ c = 10) :
    ∃ line next, (lineReader max).Call uart start line next := by
  induction n using Nat.strongRecOn generalizing c with
  | ind n ih =>
      by_cases earlier : ∃ k < n, ∃ d, uart (start + k) = some d ∧ (d = 13 ∨ d = 10)
      · obtain ⟨k, below, d, there, ended⟩ := earlier
        exact ih k below (fun j less => arrived j (Nat.lt_trans less below)) there ended
      · have quiet : Quiet (lineReader max) uart start n := by
          intro k below
          obtain ⟨d, there⟩ := Option.isSome_iff_exists.mp (arrived k below)
          exact ⟨d, there, decide_eq_false fun ended => earlier ⟨k, below, d, there, ended⟩⟩
        by_cases filled : ∃ k ≤ n, (lineReader max).full (fed (lineReader max) uart start k) = true
        · obtain ⟨k, le, full⟩ := filled
          obtain ⟨j, less, first, room⟩ := first_full start k full
          exact ⟨_, _, call_full start j (quiet.mono (Nat.le_trans less le)) room first⟩
        · have room : ∀ k, k ≤ n → (lineReader max).full (fed (lineReader max) uart start k) = false :=
            fun k le => Bool.eq_false_iff.mpr fun full => filled ⟨k, le, full⟩
          exact ⟨_, _, call_ended start n quiet room ⟨c, here, decide_eq_true stops⟩⟩

theorem editedLine_of_leaves {line : LineInput} {r : RefLine} {typed rest : List UInt8}
    (leaves : Leaves line r) (even : r.dels % 2 = 0) (folded : r.stack = referenceLine [] typed)
    (full : (line.buf ++ 0 :: rest).length = max) :
    EditedLine max typed ⟨line.buf ++ 0 :: rest, line.buf.length, line.echo⟩ := by
  have buf : line.buf = r.stack := by
    rw [leaves.buf, even]
    rfl
  have taken : (line.buf ++ 0 :: rest).take line.buf.length = r.stack := by
    rw [List.take_left, buf]
  have plain : 0 ∉ r.stack := fun zero => absurd (leaves.clean 0 zero).1 (by decide)
  constructor
  · exact ⟨rest, by rw [← folded, buf], folded ▸ plain⟩
  · rw [← folded, buf]
  · rw [taken]
    exact leaves.clean
  · rw [List.length_append, List.length_cons] at full
    exact ⟨by simp only; omega, by rw [List.length_append, List.length_cons, full]⟩
  · rw [taken, ← buf]
    exact leaves.visible

end Calls

/-- `read_line` edits as its reference does exactly when the DELs that reach the
empty line come in pairs. -/
theorem line_editing_exact_iff (uart : Nat → Option UInt8) (start max : Nat) (buf : List UInt8)
    (positive : 1 ≤ max) (sized : buf.length = max) :
    EditsLines uart start max buf ↔ DelsPaired uart start max := by
  have agree := readers_agree max
  constructor
  · intro edits r next call
    obtain ⟨line, called, leaves⟩ := agree.swap.call call
    obtain ⟨trips, rest, returned⟩ := readLineInto_of_call positive sized called
    have clean := (edits.edited trips _ next returned).clean
    simp only [List.take_left] at clean
    obtain ⟨even, _⟩ | ⟨odd, stray⟩ := stray_or_not r.dels
    · exact even
    · rw [leaves.buf, stray] at clean
      exact absurd rfl (clean 127 List.mem_cons_self).2
  · intro paired
    constructor
    · intro n c arrived here stops
      obtain ⟨line, next, call⟩ : ∃ line next, (lineReader max).Call uart start line next :=
        call_returns arrived here stops
      obtain ⟨trips, rest, returned⟩ := readLineInto_of_call positive sized call
      exact ⟨trips, _, returned⟩
    · intro trips out next returned
      obtain ⟨line, rest, call, rfl, full⟩ := call_of_readLineInto positive sized returned
      obtain ⟨r, called, leaves⟩ := agree.call call
      exact editedLine_of_leaves leaves (paired r next called)
        (refReader_folds uart max start next r called) full

theorem line_editing_exact_iff_erased :
    EditsLines (fun n => [97, 127, 8, 98, 13][n]?) 0 maxLine (List.replicate maxLine 0) ↔
      DelsPaired (fun n => [97, 127, 8, 98, 13][n]?) 0 maxLine :=
  line_editing_exact_iff (fun n => [97, 127, 8, 98, 13][n]?) 0 maxLine (List.replicate maxLine 0)
    (by decide) List.length_replicate

/-- A DEL typed on the empty line is in the line that CR then ends. -/
theorem read_line_stores_del :
    ¬ ∀ (uart : Nat → Option UInt8) (start max : Nat) (buf : List UInt8), 1 ≤ max → buf.length = max →
      EditsLines uart start max buf := by
  intro claimed
  have edits := claimed (fun n => [127, 13][n]?) 0 maxLine (List.replicate maxLine 0) (by decide)
    List.length_replicate
  have returned : readLineInto (fun n => [127, 13][n]?) maxLine 2 0 (List.replicate maxLine 0) 0 [] =
      .ok (⟨127 :: 0 :: List.replicate 254 0, 1, [127, 13, 10]⟩, 2) := by
    decide +kernel
  exact absurd rfl ((edits.edited 2 _ 2 returned).clean 127 List.mem_cons_self).2

end KehindeKernel
