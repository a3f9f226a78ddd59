import KehindeKernel.FsTree
import KehindeKernel.Lib.DirectoryTree

/-!
`fs_lookup` as a walk. `parse_path` records where the components of a path end,
`name_matches` compares a component with a name, and the loop over the recorded
ends follows one entry for each.
-/

namespace KehindeKernel

open Outcome Bytes DirectoryTree

/-- The components of a path behind its first byte. -/
def components (line : List UInt8) : List (List UInt8) := line.tail.splitOn slash

/-- Where components that start at `start` end. -/
def segmentEnds : Nat → List (List UInt8) → List Nat
  | _, [] => []
  | start, seg :: rest => (start + seg.length) :: segmentEnds (start + seg.length + 1) rest

/-- The components lie in `line` one behind the other, a byte apart. -/
def Segments (line : List UInt8) : Nat → List (List UInt8) → Prop
  | _, [] => True
  | start, seg :: rest => start + seg.length ≤ line.length ∧ (line.drop start).take seg.length = seg ∧
      Segments line (start + seg.length + 1) rest

theorem segmentEnds_take (start k : Nat) (comps : List (List UInt8)) :
    (segmentEnds start comps).take k = segmentEnds start (comps.take k) := by
  induction comps generalizing start k with
  | nil => simp [segmentEnds]
  | cons seg rest ih =>
      cases k with
      | zero => rfl
      | succ k => rw [segmentEnds, List.take_succ_cons, List.take_succ_cons, segmentEnds, ih]

theorem segmentEnds_length (start : Nat) (comps : List (List UInt8)) :
    (segmentEnds start comps).length = comps.length := by
  induction comps generalizing start with
  | nil => rfl
  | cons seg rest ih => rw [segmentEnds, List.length_cons, List.length_cons, ih]

theorem Segments.take {line : List UInt8} {start : Nat} {comps : List (List UInt8)}
    (lie : Segments line start comps) (k : Nat) : Segments line start (comps.take k) := by
  induction comps generalizing start k with
  | nil => simp [Segments]
  | cons seg rest ih =>
      cases k with
      | zero => trivial
      | succ k => exact ⟨lie.1, lie.2.1, ih lie.2.2 k⟩

/-- A text up to its first slash, and what the slash separates from it. -/
theorem split_first (rest : List UInt8) :
    (slash ∉ rest ∧ rest.splitOn slash = [rest]) ∨
    ∃ seg later, slash ∉ seg ∧ rest = seg ++ slash :: later ∧
      rest.splitOn slash = seg :: later.splitOn slash := by
  by_cases more : slash ∈ rest
  · right
    obtain ⟨seg, later, rfl, plain⟩ := List.eq_append_cons_of_mem more
    refine ⟨seg, later, plain, rfl, ?_⟩
    rw [List.splitOn_append_cons_self, List.splitOn_eq_singleton plain]
    rfl
  · exact Or.inl ⟨more, List.splitOn_eq_singleton more⟩

theorem segments_splitOn (line front rest : List UInt8) (split : line = front ++ rest) :
    Segments line front.length (rest.splitOn slash) := by
  induction size : rest.length using Nat.strong_induction_on generalizing front rest with
  | _ size ih =>
      have dropped : line.drop front.length = rest := by rw [split, List.drop_left]
      rcases split_first rest with ⟨_, one⟩ | ⟨seg, later, _, cut, more⟩
      · rw [one]
        refine ⟨by rw [split, List.length_append], ?_, trivial⟩
        rw [dropped, List.take_length]
      · rw [more]
        refine ⟨by rw [split, cut]; simp, by rw [dropped, cut, List.take_left], ?_⟩
        have front' : (front ++ seg ++ [slash]).length = front.length + seg.length + 1 := by
          simp [Nat.add_assoc]
        rw [← front']
        apply ih later.length (by rw [← size, cut]; simp; omega) _ later _ rfl
        rw [split, cut]
        simp

theorem segmentEnd_spec (path front seg tail : List UInt8)
    (ends : Terminated path (front ++ (seg ++ tail))) (plain : slash ∉ seg)
    (stop : tail = [] ∨ ∃ later, tail = slash :: later) (fuel : Nat) (enough : seg.length < fuel) :
    segmentEnd path fuel front.length = .ok (front ++ seg).length := by
  induction seg generalizing front fuel with
  | nil =>
      obtain ⟨fuel, rfl⟩ := Nat.exists_eq_succ_of_ne_zero (Nat.ne_of_gt enough)
      have here := ends.get front.length (by simp)
      rcases stop with rfl | ⟨later, rfl⟩
      · rw [segmentEnd, here]
        simp
      · rw [segmentEnd, here]
        simp [List.getD_eq_getElem?_getD]
  | cons c seg ih =>
      obtain ⟨fuel, rfl⟩ := Nat.exists_eq_succ_of_ne_zero (Nat.ne_of_gt (Nat.zero_lt_of_lt enough))
      have here := ends.get front.length (by simp)
      obtain ⟨different, plain⟩ := not_or.mp (List.mem_cons.not.mp plain)
      have live : c ≠ 0 := by
        rintro rfl
        obtain ⟨_, _, clean⟩ := ends
        exact clean (by simp)
      have shifted := ih (front ++ [c]) (by simpa using ends) plain fuel (Nat.lt_of_succ_lt_succ enough)
      rw [segmentEnd, here]
      simp only [List.getD_eq_getElem?_getD, List.getElem?_append_right (Nat.le_refl _), Nat.sub_self,
        List.cons_append, List.getElem?_cons_zero, Option.getD_some, fetch_some, ok_bind,
        if_pos (And.intro live (Ne.symm different))]
      simpa using shifted

theorem parseSegments_spec (path : List UInt8) (free : Nat) (front : List UInt8) (c : UInt8)
    (rest : List UInt8) (ends : Terminated path (front ++ c :: rest)) :
    parseSegments path free front.length =
      .ok ((segmentEnds (front.length + 1) (rest.splitOn slash)).take free) := by
  induction free generalizing front c rest with
  | zero =>
      have here := ends.get front.length (by simp)
      simp [parseSegments, here]
  | succ free ih =>
      have here : path[front.length]? = some c := by
        rw [ends.get front.length (by simp)]
        simp [List.getD_eq_getElem?_getD]
      have live : c ≠ 0 := by
        rintro rfl
        obtain ⟨_, _, clean⟩ := ends
        exact clean (by simp)
      have roomy : rest.length < path.length + 1 := by
        obtain ⟨zeros, same, _⟩ := ends
        rw [same]
        simp
        omega
      have ends' : Terminated path ((front ++ [c]) ++ rest) := by simpa using ends
      rw [parseSegments, here]
      simp only [fetch_some, ok_bind, if_neg live]
      -- the last component, or one with a slash behind it
      rcases split_first rest with ⟨plain, one⟩ | ⟨seg, later, plain, rfl, more⟩
      · have stop := segmentEnd_spec path (front ++ [c]) rest [] (by simpa using ends') plain
          (Or.inl rfl) (path.length + 1) roomy
        have last : parseSegments path free (front ++ [c] ++ rest).length = .ok [] := by
          have last := ends'.get ((front ++ [c]) ++ rest).length (Nat.le_refl _)
          rw [List.getD_eq_getElem?_getD, List.getElem?_eq_none (Nat.le_refl _)] at last
          cases free with
          | zero => rw [parseSegments, last]; rfl
          | succ free => rw [parseSegments, last]; rfl
        rw [List.length_append, List.length_singleton] at stop
        rw [stop, ok_bind, last, ok_bind, one]
        simp only [segmentEnds, List.take_succ_cons, List.take_nil, List.length_append,
          List.length_singleton, pure_ok]
      · have stop := segmentEnd_spec path (front ++ [c]) seg (slash :: later) (by simpa using ends')
          plain (Or.inr ⟨later, rfl⟩) (path.length + 1) (by rw [List.length_append] at roomy; omega)
        have next := ih (front ++ [c] ++ seg) slash later (by simpa using ends')
        have place : (front ++ [c] ++ seg).length = front.length + 1 + seg.length := by
          rw [List.length_append, List.length_append, List.length_singleton]
        rw [List.length_append, List.length_singleton] at stop
        rw [stop, ok_bind, next, ok_bind, more, place]
        rfl

/-- `parse_path` finds the first `maxSegments` components. -/
theorem parsePath_spec (path line : List UInt8) (ends : Terminated path line) (some_ : line ≠ [])
    (maxSegments : Nat) : parsePath path maxSegments =
      .ok (if line = [slash] then [] else segmentEnds 1 ((components line).take maxSegments)) := by
  cases line with
  | nil => contradiction
  | cons c rest =>
      have first : path[0]? = some c := ends.get 0 (Nat.zero_le _)
      simp only [parsePath, strlen_spec path _ ends, ok_bind, first, fetch_some]
      by_cases bare : c :: rest = [slash]
      · obtain ⟨rfl, rfl⟩ := List.cons.inj bare
        simp
      · have long : ¬ ((c :: rest).length = 1 ∧ c = slash) := by
          rintro ⟨one, rfl⟩
          have none : rest = [] := by simpa using one
          exact bare (by rw [none])
        rw [if_neg long, if_neg bare]
        exact (parseSegments_spec path maxSegments [] c rest ends).trans
          (congrArg Except.ok (segmentEnds_take _ _ _))

theorem nameMatchesFrom_spec (path whole : List UInt8) (ends : Terminated path whole) (start : Nat)
    (name text' : List UInt8) (named : Terminated name text') (trips i : Nat)
    (inPath : start + i + trips ≤ whole.length) (inName : i ≤ text'.length) :
    nameMatchesFrom path start name trips i =
      .ok (decide ((whole.drop (start + i)).take trips = text'.drop i)) := by
  induction trips generalizing i with
  | zero =>
      have here := named.get i inName
      by_cases last : i = text'.length
      · subst last
        simp [nameMatchesFrom, here]
      · have more : i < text'.length := by omega
        have live : text'[i] ≠ 0 := fun zero => by
          obtain ⟨_, _, clean⟩ := named
          exact clean (zero ▸ List.getElem_mem more)
        have tail : ¬ [] = text'.drop i := by
          intro none
          have short := List.drop_eq_nil_iff.mp none.symm
          omega
        simp [nameMatchesFrom, here, more, live, tail]
  | succ trips ih =>
      have inside : start + i < whole.length := by omega
      have p := ends.get (start + i) (Nat.le_of_lt inside)
      have c := named.get i inName
      have live : whole[start + i] ≠ 0 := fun zero => by
        obtain ⟨_, _, clean⟩ := ends
        exact clean (zero ▸ List.getElem_mem inside)
      have take : (whole.drop (start + i)).take (trips + 1) =
          whole[start + i] :: (whole.drop (start + (i + 1))).take trips := by
        rw [List.drop_eq_getElem_cons inside, List.take_succ_cons, Nat.add_assoc]
      rw [nameMatchesFrom, p, c, take]
      simp only [fetch_some, ok_bind, List.getD_eq_getElem?_getD, List.getElem?_eq_getElem inside,
        Option.getD_some]
      -- the name may end before the component does
      by_cases more : i < text'.length
      · have drop := List.drop_eq_getElem_cons more
        rw [List.getElem?_eq_getElem more, Option.getD_some, drop]
        by_cases same : whole[start + i] = text'[i]
        · rw [if_neg (not_not.mpr same), if_neg (same ▸ live), ih (i + 1) (by omega) more, same]
          simp only [List.cons.injEq, true_and]
        · rw [if_pos same]
          simp only [List.cons.injEq, same, false_and, decide_false, pure_ok]
      · have past : text'.drop i = [] := List.drop_eq_nil_of_le (Nat.not_lt.mp more)
        rw [List.getElem?_eq_none (Nat.not_lt.mp more), Option.getD_none, if_pos live, past]
        simp

/-- `name_matches` is equality of the component and the name. -/
theorem nameMatches_spec (path line : List UInt8) (ends : Terminated path line)
    (start : Nat) (seg : List UInt8)
    (inPath : start + seg.length ≤ line.length) (here : (line.drop start).take seg.length = seg)
    (name text' : List UInt8) (named : Terminated name text') :
    nameMatches path start (start + seg.length) name = .ok (decide (text' = seg)) := by
  have width : indexDiff (start + seg.length) start = seg.length := by
    rw [indexDiff, if_pos (Nat.le_add_right start _), Nat.add_sub_cancel_left]
  rw [nameMatches, width, nameMatchesFrom_spec path line ends start name text' named seg.length 0
    inPath (Nat.zero_le _), Nat.add_zero, here, List.drop_zero]
  simp [eq_comm]

/-- The directory table of a node list. -/
def dirsOf (nodes : List Node) (d : Nat) : Option (List Entry) :=
  (findNode nodes d).bind fun n => if n.inode.inodeType = 2 then some n.entries else none

theorem dirsOf_dir {nodes : List Node} {d : Nat} {n : Node} (found : findNode nodes d = some n)
    (dir : n.inode.inodeType = 2) : dirsOf nodes d = some n.entries := by
  rw [dirsOf, found, Option.bind_some, if_pos dir]

theorem dirsOf_eq_some {nodes : List Node} {d : Nat} {l : List Entry} (listed : dirsOf nodes d = some l) :
    ∃ n, findNode nodes d = some n ∧ n.inode.inodeType = 2 ∧ n.entries = l := by
  obtain ⟨n, found, shown⟩ := Option.bind_eq_some_iff.mp listed
  by_cases dir : n.inode.inodeType = 2
  · rw [if_pos dir] at shown
    exact ⟨n, found, dir, Option.some.inj shown⟩
  · simp [dir] at shown

section Walk

variable {σ : Type} {raw : Nat → Region} {s : Fs σ} {nodes : List Node}

/-- The component loop of `fs_lookup` from node `n` on. -/
theorem lookupFrom_spec (shape : Shape raw s nodes) (tree : Tree nodes) (path line : List UInt8)
    (ends : Terminated path line) (comps : List (List UInt8))
    (start : Nat) (lie : Segments line start comps) (n : Node) (member : n ∈ nodes) :
    lookupFrom s path (segmentEnds start comps) start n.addr =
      .ok ((walk (dirsOf nodes) n.inode.ino comps).getD invalidIno) := by
  have found := findNode_unique shape.distinct n member
  induction comps generalizing start n with
  | nil => simp [segmentEnds, lookupFrom, (shape.stored n member).2]
  | cons seg rest ih =>
      obtain ⟨inPath, here, later⟩ := lie
      rw [segmentEnds, lookupFrom, (shape.stored n member).2, fetch_some, ok_bind, walk_cons]
      by_cases dir : n.inode.inodeType = 2
      · have slots := tree.slots n member dir
        have listed := dirsOf_dir found dir
        have names := tree.names n member dir
        have agree : ∀ j, j < n.inode.inodeSize →
            nameMatches path start (start + seg.length) (slotOf n.chain j).name =
              .ok (decide (text (slotOf n.chain j).name = seg)) := fun j inside =>
          nameMatches_spec path line ends start seg inPath here _ _
            (terminated_text _ (slots.named j inside).1)
        rw [if_neg (not_not.mpr dir)]
        -- names are distinct, so the first slot that matches is the child
        rcases scanDirents_spec shape n member slots _ (fun t => decide (t = seg)) agree
          n.inode.inodeSize 0 none (by omega) with ⟨j, _, inside, hit, _, done⟩ | ⟨misses, done⟩
        · have inside : j < n.inode.inodeSize := by omega
          have entry : (seg, (slotOf n.chain j).inodeId) ∈ n.entries := by
            have get := List.mem_of_getElem? (entries_get n j inside)
            rwa [entryOf, of_decide_eq_true hit] at get
          obtain ⟨_, m, inM, number⟩ := tree.targets n member dir _ entry
          have number : m.inode.ino = (slotOf n.chain j).inodeId := number
          have foundM := findNode_unique shape.distinct m inM
          rw [done, ok_bind]
          dsimp only
          rw [readDirent_spec shape n member slots j inside, ok_bind, ← number,
            (findInode_hit shape foundM).1, ok_bind, ih _ later m inM foundM,
            child_of_mem (dirsOf nodes) _ _ listed names seg _ entry, Option.bind_some, number]
        · have missing : child (dirsOf nodes) n.inode.ino seg = none := by
            rw [child_eq_none]
            intro l same
            rw [listed, Option.some.injEq] at same
            rw [← same]
            intro inside
            obtain ⟨e, inE, equal⟩ := List.mem_map.mp inside
            obtain ⟨j, below, rfl⟩ := List.mem_map.mp inE
            exact of_decide_eq_false (misses j (Nat.zero_le _)
              (by rw [Nat.zero_add]; exact List.mem_range.mp below)) equal
          rw [done, ok_bind, missing]
          rfl
      · have missing : child (dirsOf nodes) n.inode.ino seg = none := by
          rw [child, dirsOf, found, Option.bind_some, if_neg dir]
          rfl
        rw [if_pos dir, missing]
        rfl

/-- What `fs_lookup` returns over the nodes. -/
def lookupResult (nodes : List Node) (line : List UInt8) : Nat :=
  if line = [] then invalidIno else if line = [slash] then rootIno
  else (walk (dirsOf nodes) rootIno ((components line).take 16)).getD invalidIno

/-- `fs_lookup` walks the first 16 components of the path from the root. -/
theorem fsLookup_spec (shape : Shape raw s nodes) (tree : Tree nodes) (path line : List UInt8)
    (ends : Terminated path line) :
    fsLookup s path = .ok (lookupResult nodes line) := by
  unfold lookupResult
  have first := ends.get 0 (Nat.zero_le _)
  cases line with
  | nil => simp [fsLookup, first]
  | cons c rest =>
      have live : c ≠ 0 := by
        rintro rfl
        obtain ⟨_, _, clean⟩ := ends
        exact clean List.mem_cons_self
      rw [fsLookup, first, fetch_some, ok_bind, List.getD_cons_zero, if_neg live,
        parsePath_spec path _ ends (List.cons_ne_nil c rest), ok_bind, if_neg (List.cons_ne_nil c rest)]
      by_cases bare : c :: rest = [slash]
      · rw [if_pos bare, if_pos bare, if_pos List.length_nil]
        rfl
      · have some_ : (components (c :: rest)).take 16 ≠ [] := by
          rw [Ne, List.take_eq_nil_iff]
          simp [components]
        have count : (segmentEnds 1 ((components (c :: rest)).take 16)).length ≠ 0 := by
          rw [segmentEnds_length]
          exact fun zero => some_ (List.length_eq_zero_iff.mp zero)
        rw [if_neg bare, if_neg bare, if_neg count]
        cases found : findNode nodes rootIno with
        | none =>
            have absent : dirsOf nodes rootIno = none := by
              rw [dirsOf, found]
              rfl
            obtain ⟨name, later, split⟩ := List.exists_cons_of_ne_nil some_
            rw [findInode_miss shape found, ok_bind, if_pos rfl, split, walk_cons, child, absent]
            rfl
        | some root =>
            obtain ⟨member, number⟩ := findNode_some found
            obtain ⟨pointer, nonnull, _⟩ := findInode_hit shape found
            have lie := segments_splitOn (c :: rest) [c] rest rfl
            rw [pointer, ok_bind, if_neg nonnull, ← number]
            exact lookupFrom_spec shape tree path _ ends _ 1 (lie.take 16) root member

end Walk

end KehindeKernel
