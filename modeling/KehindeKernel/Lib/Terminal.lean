import Mathlib.Data.List.Basic

/-!
One row of a terminal that only knows backspace and carriage return: every other
byte goes into the cell under the cursor. What is typed and erased at the end of
a line keeps the row equal to the line, with blanks behind it.
-/

namespace Terminal

structure Row where
  cells : List UInt8
  cursor : Nat
  deriving DecidableEq, Repr

/-- A line feed leaves the row as it is. -/
def feed (row : Row) (c : UInt8) : Row :=
  if c = 8 then { row with cursor := row.cursor - 1 }
  else if c = 13 then { row with cursor := 0 }
  else if c = 10 then row
  else
    { cells := row.cells.take row.cursor ++ c :: row.cells.drop (row.cursor + 1)
      cursor := row.cursor + 1 }

def display (bytes : List UInt8) : Row := bytes.foldl feed ⟨[], 0⟩

theorem display_append (bytes more : List UInt8) : display (bytes ++ more) = more.foldl feed (display bytes) :=
  List.foldl_append

/-- The row holds `line` and blanks, with the cursor behind the line. -/
structure Shows (row : Row) (line : List UInt8) : Prop where
  cursor : row.cursor = line.length
  cells : ∃ k, row.cells = line ++ List.replicate k 32

theorem shows_empty : Shows (display []) [] := ⟨rfl, 0, rfl⟩

theorem Shows.type {row : Row} {line : List UInt8} (shows_ : Shows row line) {c : UInt8}
    (back : c ≠ 8) (home : c ≠ 13) (down : c ≠ 10) : Shows (feed row c) (line ++ [c]) := by
  obtain ⟨k, cells⟩ := shows_.cells
  rw [feed, if_neg back, if_neg home, if_neg down, cells, shows_.cursor]
  refine ⟨by rw [List.length_append, List.length_singleton], k - 1, ?_⟩
  rw [List.take_left, List.drop_append, List.drop_replicate, List.append_assoc, List.singleton_append,
    List.drop_eq_nil_of_le (Nat.le_succ _), List.nil_append, Nat.add_sub_cancel_left]

/-- Backspace, blank, backspace take the last byte of the line away. -/
theorem Shows.erase {row : Row} {line : List UInt8} (shows_ : Shows row line) (some_ : line ≠ []) :
    Shows ([8, 32, 8].foldl feed row) line.dropLast := by
  obtain ⟨k, cells⟩ := shows_.cells
  obtain ⟨front, last, rfl⟩ : ∃ front last, line = front ++ [last] :=
    ⟨line.dropLast, line.getLast some_, (List.dropLast_append_getLast some_).symm⟩
  have cursor : row.cursor = front.length + 1 := by
    rw [shows_.cursor, List.length_append, List.length_singleton]
  have erased : [8, 32, 8].foldl feed row = ⟨front ++ List.replicate (k + 1) 32, front.length⟩ := by
    simp [feed, cursor, cells, List.replicate_succ]
  rw [erased, List.dropLast_concat]
  exact ⟨rfl, k + 1, rfl⟩

end Terminal
