import KehindeKernel.FsLookup

/-!
The indices `parse_path` records, for any capacity. Between two of them lies a
component of the path split at the slashes, and on such a component the two
comparators of the file system give the same answer.
-/

namespace KehindeKernel

open Outcome Bytes

theorem splitOn_length (rest : List UInt8) : (rest.splitOn slash).length = rest.count slash + 1 := by
  induction rest with
  | nil => rfl
  | cons c rest ih =>
      rw [List.splitOn_cons_eq_if_modifyHead]
      by_cases sep : c = slash
      · rw [if_pos (by simp [sep]), List.length_cons, ih, sep, List.count_cons_self]
      · rw [if_neg (by simpa using sep), List.length_modifyHead, ih, List.count_cons_of_ne sep]

/-- Behind its first slash an absolute path has a component for every slash. -/
theorem components_length {line : List UInt8} (absolute : line.head? = some slash) :
    (components line).length = line.count slash := by
  obtain ⟨rest, rfl⟩ := List.head?_eq_some_iff.mp absolute
  rw [components, List.tail_cons, splitOn_length, List.count_cons_self]

theorem segmentEnds_above (start : Nat) (comps : List (List UInt8)) :
    ∀ stop ∈ segmentEnds start comps, start ≤ stop := by
  induction comps generalizing start with
  | nil => simp [segmentEnds]
  | cons seg rest ih =>
      intro stop member
      rcases List.mem_cons.mp member with rfl | later
      · exact Nat.le_add_right start _
      · have above := ih _ stop later
        omega

theorem segmentEnds_increasing (start : Nat) (comps : List (List UInt8)) :
    (segmentEnds start comps).Pairwise (· < ·) := by
  induction comps generalizing start with
  | nil => exact List.Pairwise.nil
  | cons seg rest ih =>
      refine List.Pairwise.cons (fun stop member => ?_) (ih _)
      exact segmentEnds_above _ rest stop member

/-- Where the segment that ends at `ends[i]` begins: behind the separator. -/
def segmentStart (first : Nat) (ends : List Nat) : Nat → Nat
  | 0 => first
  | i + 1 => ends.getD i 0 + 1

/-- `path[start, stop)` -/
def slice (line : List UInt8) (start stop : Nat) : List UInt8 := (line.drop start).take (stop - start)

theorem segments_slice {line : List UInt8} (first : Nat) (comps : List (List UInt8))
    (lie : Segments line first comps) (i stop : Nat) (ends : (segmentEnds first comps)[i]? = some stop) :
    segmentStart first (segmentEnds first comps) i ≤ stop ∧ stop ≤ line.length ∧
      comps[i]? = some (slice line (segmentStart first (segmentEnds first comps) i) stop) := by
  induction comps generalizing first i with
  | nil => simp [segmentEnds] at ends
  | cons seg rest ih =>
      obtain ⟨inside, here, later⟩ := lie
      cases i with
      | zero =>
          rw [segmentEnds, List.getElem?_cons_zero, Option.some.injEq] at ends
          subst ends
          refine ⟨Nat.le_add_right first _, inside, ?_⟩
          rw [slice, segmentStart, Nat.add_sub_cancel_left, here, List.getElem?_cons_zero]
      | succ i =>
          rw [segmentEnds, List.getElem?_cons_succ] at ends
          have start : segmentStart first (segmentEnds first (seg :: rest)) (i + 1) =
              segmentStart (first + seg.length + 1) (segmentEnds (first + seg.length + 1) rest) i := by
            cases i with
            | zero => rfl
            | succ i => rfl
          rw [start, List.getElem?_cons_succ]
          exact ih _ later i ends

/-- Both comparators answer whether a segment of the path is the name. -/
def ComparatorsExact (path seg : List UInt8) (start stop : Nat) : Prop :=
  ∀ name text, Terminated name text →
    nameMatches path start stop name = .ok (decide (seg = text)) ∧
    nameMatchesSingle name (seg ++ [0]) = .ok (decide (seg = text)) ∧
    nameMatchesSingle (seg ++ [0]) name = .ok (decide (seg = text))

theorem comparators_exact {path line : List UInt8} (ends : Terminated path line) {start stop : Nat}
    (ordered : start ≤ stop) (inside : stop ≤ line.length) :
    ComparatorsExact path (slice line start stop) start stop := by
  intro name text named
  have width : (slice line start stop).length = stop - start := by
    rw [slice, List.length_take, List.length_drop]
    omega
  have plain : 0 ∉ slice line start stop := fun zero => by
    obtain ⟨_, _, clean⟩ := ends
    exact clean (List.mem_of_mem_drop (List.mem_of_mem_take zero))
  have single := terminated_cstring _ plain
  have here : (line.drop start).take (slice line start stop).length = slice line start stop := by
    rw [width, slice]
  have matched := nameMatches_spec path line ends start (slice line start stop) (by omega) here name text named
  rw [width, Nat.add_sub_cancel' ordered] at matched
  refine ⟨?_, ?_, nameMatchesSingle_spec _ _ _ _ single named⟩
  · rw [matched]
    simp only [eq_comm]
  · rw [nameMatchesSingle_spec _ _ _ _ named single]
    simp only [eq_comm]

/-- `ends` are the indices of the first components of `line`, and comparing a
component with a name is exact. -/
structure SegmentedBy (path line : List UInt8) (m : Nat) (ends : List Nat) : Prop where
  counted : ends.length = min m (line.count slash)
  increasing : ends.Pairwise (· < ·)
  inside : ∀ stop ∈ ends, stop ≤ line.length
  components : ∀ i stop, ends[i]? = some stop →
    ((components line).take m)[i]? = some (slice line (segmentStart 1 ends i) stop)
  compared : ∀ i stop, ends[i]? = some stop →
    ComparatorsExact path (slice line (segmentStart 1 ends i) stop) (segmentStart 1 ends i) stop

theorem segmentedBy_components {path line : List UInt8} (ends : Terminated path line)
    (absolute : line.head? = some slash) (m : Nat) :
    SegmentedBy path line m (segmentEnds 1 ((components line).take m)) := by
  have lie : Segments line 1 ((components line).take m) := by
    obtain ⟨rest, rfl⟩ := List.head?_eq_some_iff.mp absolute
    exact (segments_splitOn (slash :: rest) [slash] rest rfl).take m
  constructor
  · rw [segmentEnds_length, List.length_take, components_length absolute]
  · exact segmentEnds_increasing 1 _
  · intro stop member
    obtain ⟨i, here⟩ := List.mem_iff_getElem?.mp member
    exact (segments_slice 1 _ lie i stop here).2.1
  · exact fun i stop here => (segments_slice 1 _ lie i stop here).2.2
  · intro i stop here
    obtain ⟨ordered, inside, _⟩ := segments_slice 1 _ lie i stop here
    exact comparators_exact ends ordered inside

/-- For every capacity `parse_path` records where the first components of an
absolute path end. It does so in a buffer that ends at the terminator, so it
reads nothing behind it. -/
theorem path_segments_exact (path line : List UInt8) (ends : Terminated path line)
    (absolute : line.head? = some slash) (long : line ≠ [slash]) (m : Nat) :
    ∃ stops, parsePath path m = .ok stops ∧ parsePath (line ++ [0]) m = .ok stops ∧
      SegmentedBy path line m stops := by
  have some_ : line ≠ [] := by
    rintro rfl
    simp at absolute
  have exact_ : Terminated (line ++ [0]) line := by
    obtain ⟨_, _, plain⟩ := ends
    exact terminated_cstring line plain
  have parsed := parsePath_spec path line ends some_ m
  have bare := parsePath_spec (line ++ [0]) line exact_ some_ m
  rw [if_neg long] at parsed bare
  exact ⟨_, parsed, bare, segmentedBy_components ends absolute m⟩

/-- `/a//` with room for two of its three components. -/
theorem path_segments_exact_double_slash :
    ∃ stops, parsePath [47, 97, 47, 47, 0, 98] 2 = .ok stops ∧
      parsePath ([47, 97, 47, 47] ++ [0]) 2 = .ok stops ∧
      SegmentedBy [47, 97, 47, 47, 0, 98] [47, 97, 47, 47] 2 stops :=
  path_segments_exact [47, 97, 47, 47, 0, 98] [47, 97, 47, 47] ⟨[98], rfl, by decide⟩ rfl (by decide) 2

end KehindeKernel
