import KehindeKernel.ShellRuns
import KehindeKernel.Lib.Words

/-!
`parse_args` and `join_args` on the bytes of their buffers. The tokens of a line
are its maximal runs without spaces, cut out of the line in place; joined with
single spaces they are no longer than the line, which is all that keeps
`join_args` inside its buffer.
-/

namespace KehindeKernel

open Outcome Bytes Words

/-- `while (s[j]) dst[pos++] = s[j++]` -/
def copyArg (buf : List UInt8) : Nat → Nat → List UInt8 → Nat → Run (List UInt8 × Nat)
  | 0, _, _, _ => throw .hang
  | fuel + 1, s, dst, pos => do
      let c ← fetch buf[s]?
      if c ≠ 0 then do
        let dst ← storeAt dst pos c
        copyArg buf fuel (s + 1) dst (pos + 1)
      else pure (dst, pos)

/-- The loop of `join_args` with `trips` arguments left, and the terminator behind it. -/
def joinArgsFrom (buf : List UInt8) (argv : List Nat) (start : Nat) :
    Nat → Nat → List UInt8 → Nat → Run (List UInt8)
  | 0, _, dst, pos => storeAt dst pos 0
  | trips + 1, i, dst, pos => do
      let (dst, pos) ← if i > start then do
          let dst ← storeAt dst pos space
          pure (dst, pos + 1)
        else pure (dst, pos)
      let s ← fetch argv[i]?
      let (dst, pos) ← copyArg buf (buf.length + 1) s dst pos
      joinArgsFrom buf argv start trips (i + 1) dst pos

/-- `join_args(dst, argv, start, argc)`, the arguments cut out of `buf`. -/
def joinArgsInto (buf dst : List UInt8) (argv : List Nat) (start argc : Nat) : Run (List UInt8) :=
  joinArgsFrom buf argv start (argc - start) start dst 0

section Parsing

theorem at_cursor (front tail : List UInt8) (c : UInt8) : (front ++ c :: tail)[front.length]? = some c := by
  simp

theorem skipSpaces_blanks (front tail : List UInt8) (c : UInt8) (live : c ≠ space) (k fuel : Nat)
    (enough : k < fuel) :
    skipSpaces (front ++ (List.replicate k space ++ c :: tail)) fuel front.length = .ok (front.length + k) := by
  induction k generalizing front fuel with
  | zero =>
      obtain ⟨fuel, rfl⟩ := Nat.exists_eq_succ_of_ne_zero (Nat.ne_of_gt enough)
      rw [skipSpaces, List.replicate_zero, List.nil_append, at_cursor, fetch_some, ok_bind, if_neg live]
      rfl
  | succ k ih =>
      obtain ⟨fuel, rfl⟩ := Nat.exists_eq_succ_of_ne_zero (Nat.ne_of_gt (Nat.zero_lt_of_lt enough))
      have later := ih (front ++ [space]) fuel (Nat.lt_of_succ_lt_succ enough)
      rw [List.append_assoc, List.length_append, List.length_singleton] at later
      rw [skipSpaces, List.replicate_succ, List.cons_append, at_cursor, fetch_some, ok_bind, if_pos rfl]
      refine later.trans ?_
      congr 1
      omega

theorem tokenEnd_word (front w tail : List UInt8) (stop : UInt8) (plain : 0 ∉ w) (whole : space ∉ w)
    (ends : stop = 0 ∨ stop = space) (fuel : Nat) (enough : w.length < fuel) :
    tokenEnd (front ++ (w ++ stop :: tail)) fuel front.length = .ok (front.length + w.length) := by
  induction w generalizing front fuel with
  | nil =>
      obtain ⟨fuel, rfl⟩ := Nat.exists_eq_succ_of_ne_zero (Nat.ne_of_gt enough)
      have stops : ¬ (stop ≠ 0 ∧ stop ≠ space) := fun live => ends.elim live.1 live.2
      rw [tokenEnd, List.nil_append, at_cursor, fetch_some, ok_bind, if_neg stops]
      rfl
  | cons c w ih =>
      obtain ⟨fuel, rfl⟩ := Nat.exists_eq_succ_of_ne_zero (Nat.ne_of_gt (Nat.zero_lt_of_lt enough))
      simp only [List.mem_cons, not_or] at plain whole
      have live : c ≠ 0 ∧ c ≠ space := ⟨Ne.symm plain.1, Ne.symm whole.1⟩
      have later := ih (front ++ [c]) plain.2 whole.2 fuel (Nat.lt_of_succ_lt_succ enough)
      rw [List.append_assoc, List.length_append, List.length_singleton] at later
      rw [tokenEnd, List.cons_append, at_cursor, fetch_some, ok_bind, if_pos live]
      refine later.trans ?_
      rw [List.length_cons]
      congr 1
      omega

theorem cutToken_end (front tail : List UInt8) (stop : UInt8) :
    cutToken (front ++ stop :: tail) front.length =
      .ok (front ++ 0 :: tail, front.length + if stop = 0 then 0 else 1) := by
  rw [cutToken, at_cursor, fetch_some, ok_bind]
  by_cases zero : stop = 0
  · rw [if_neg (not_not_intro zero), if_pos zero, zero]
    rfl
  · rw [if_pos zero, if_neg zero, List.set_append_right _ _ (Nat.le_refl _), Nat.sub_self, List.set_cons_zero]
    rfl

/-- One trip of `parse_args`: a word behind blanks is cut off where it ends. -/
theorem parseArgsFrom_word (free : Nat) (done w tail : List UInt8) (k : Nat) (stop : UInt8) (some_ : w ≠ [])
    (plain : 0 ∉ w) (whole : space ∉ w) (ends : stop = 0 ∨ stop = space) :
    parseArgsFrom (free + 1) (done ++ (List.replicate k space ++ (w ++ stop :: tail))) done.length =
      parseArgsFrom free (done ++ List.replicate k space ++ w ++ 0 :: tail)
        (done.length + k + w.length + if stop = 0 then 0 else 1) >>= fun r =>
      .ok (r.1, (done.length + k) :: r.2) := by
  obtain ⟨c, more, rfl⟩ := List.exists_cons_of_ne_nil some_
  have nonzero : c ≠ 0 := fun zero => plain (zero ▸ List.mem_cons_self)
  have nonblank : c ≠ space := fun blank => whole (blank ▸ List.mem_cons_self)
  obtain ⟨front, known⟩ : ∃ front, front = done ++ List.replicate k space := ⟨_, rfl⟩
  have place : front.length = done.length + k := by simp [known]
  have after : (front ++ (c :: more)).length = done.length + k + (c :: more).length := by
    rw [List.length_append, place]
  obtain ⟨buf, shape⟩ : ∃ buf, buf = done ++ (List.replicate k space ++ (c :: more ++ stop :: tail)) :=
    ⟨_, rfl⟩
  have atWord : buf = front ++ (c :: more ++ stop :: tail) := by rw [shape, known, List.append_assoc]
  have atEnd : buf = front ++ (c :: more) ++ stop :: tail := by rw [atWord, List.append_assoc]
  obtain ⟨first, here, live⟩ : ∃ first, buf[done.length]? = some first ∧ first ≠ 0 := by
    rw [shape]
    cases k with
    | zero => exact ⟨c, at_cursor .., nonzero⟩
    | succ k => exact ⟨space, at_cursor .., by decide⟩
  have skipped : skipSpaces buf (buf.length + 1) done.length = .ok (done.length + k) := by
    rw [shape]
    exact skipSpaces_blanks done (more ++ stop :: tail) c nonblank k _ (by simp; omega)
  have there : buf[done.length + k]? = some c := by
    rw [atWord, ← place]
    exact at_cursor front (more ++ stop :: tail) c
  have ended : tokenEnd buf (buf.length + 1) (done.length + k) = .ok (done.length + k + (c :: more).length) := by
    rw [atWord, ← place]
    exact tokenEnd_word front (c :: more) tail stop plain whole ends _ (by simp; omega)
  have cut := cutToken_end (front ++ (c :: more)) tail stop
  rw [← atEnd, after] at cut
  rw [← shape, ← known, parseArgsFrom, here, fetch_some, ok_bind, if_neg live, skipped, ok_bind, there,
    fetch_some, ok_bind, if_neg nonzero, ended, ok_bind, cut, ok_bind]
  rfl

/-- A trip that finds only blanks, or nothing, ends the loop. -/
theorem parseArgsFrom_blank (free : Nat) (done tail : List UInt8) (k : Nat) :
    parseArgsFrom free (done ++ (List.replicate k space ++ 0 :: tail)) done.length =
      .ok (done ++ (List.replicate k space ++ 0 :: tail), []) := by
  obtain ⟨c, here⟩ : ∃ c, (done ++ (List.replicate k space ++ 0 :: tail))[done.length]? = some c := by
    cases k with
    | zero => exact ⟨0, at_cursor ..⟩
    | succ k => exact ⟨space, at_cursor ..⟩
  cases free with
  | zero =>
      rw [parseArgsFrom, here]
      rfl
  | succ free =>
      rw [parseArgsFrom, here, fetch_some, ok_bind]
      by_cases zero : c = 0
      · rw [if_pos zero]
        rfl
      · have skipped := skipSpaces_blanks done tail 0 (by decide) k
          ((done ++ (List.replicate k space ++ 0 :: tail)).length + 1) (by simp; omega)
        have there := at_cursor (done ++ List.replicate k space) tail 0
        rw [List.length_append, List.length_replicate, List.append_assoc] at there
        rw [if_neg zero, skipped, ok_bind, there, fetch_some, ok_bind, if_pos rfl]
        rfl

/-- `start` leads to the NUL-terminated copy of `w` inside the line. -/
def PointsAt (buf : List UInt8) (low high start : Nat) (w : List UInt8) : Prop :=
  low ≤ start ∧ start < high ∧ Terminated (buf.drop start) w

/-- From a place on, `parse_args` finds the words of the rest of the line in order. -/
theorem parseArgsFrom_words (free : Nat) (done line tail : List UInt8) (plain : 0 ∉ line) :
    ∃ line' argv, parseArgsFrom free (done ++ (line ++ 0 :: tail)) done.length =
        .ok (done ++ (line' ++ 0 :: tail), argv) ∧ line'.length = line.length ∧
      List.Forall₂ (PointsAt (done ++ (line' ++ 0 :: tail)) done.length (done.length + line.length))
        argv ((words space line).take free) := by
  induction free generalizing done line with
  | zero =>
      refine ⟨line, [], ?_, rfl, .nil⟩
      obtain ⟨c, here⟩ : ∃ c, (done ++ (line ++ 0 :: tail))[done.length]? = some c := by
        cases line with
        | nil => exact ⟨0, at_cursor ..⟩
        | cons c line => exact ⟨c, at_cursor ..⟩
      rw [parseArgsFrom, here]
      rfl
  | succ free ih =>
      -- blanks only, a last word, or a word with a space behind it
      rcases split_word space line with ⟨k, rfl⟩ | ⟨k, w, some_, whole, rfl⟩ | ⟨k, w, rest, some_, whole, rfl⟩
      · refine ⟨_, [], parseArgsFrom_blank (free + 1) done tail k, rfl, ?_⟩
        have blanks := words_blanks space k []
        rw [List.append_nil, words_nil] at blanks
        rw [blanks]
        exact .nil
      · have plainW : 0 ∉ w := fun inside => plain (List.mem_append_right _ inside)
        have step := parseArgsFrom_word free done w tail k 0 some_ plainW whole (Or.inl rfl)
        have last := parseArgsFrom_blank free (done ++ List.replicate k space ++ w) tail 0
        have place : (done ++ List.replicate k space ++ w).length = done.length + k + w.length := by
          simp [Nat.add_assoc]
        rw [place, List.replicate_zero, List.nil_append] at last
        rw [if_pos rfl, Nat.add_zero (done.length + k + w.length), last, ok_bind] at step
        refine ⟨List.replicate k space ++ w, [done.length + k], ?_, rfl, ?_⟩
        · rw [List.append_assoc (List.replicate k space), step]
          simp
        · rw [words_blanks, words_last some_ whole]
          refine .cons ⟨Nat.le_add_right _ _, ?_, tail, ?_, plainW⟩ (by simp)
          · have long := List.length_pos_iff.mpr some_
            simp only [List.length_append, List.length_replicate]
            omega
          · simp [List.drop_append]
      · have plainW : 0 ∉ w := fun inside => plain (List.mem_append_right _ (List.mem_append_left _ inside))
        have plainRest : 0 ∉ rest := fun inside =>
          plain (List.mem_append_right _ (List.mem_append_right _ (List.mem_cons_of_mem _ inside)))
        have step := parseArgsFrom_word free done w (rest ++ 0 :: tail) k space some_ plainW whole (Or.inr rfl)
        obtain ⟨rest', argv, later, length, found⟩ := ih (done ++ List.replicate k space ++ w ++ [0]) rest plainRest
        have place : (done ++ List.replicate k space ++ w ++ [0]).length = done.length + k + w.length + 1 := by
          simp [Nat.add_assoc]
        have shape : done ++ List.replicate k space ++ w ++ [0] ++ (rest' ++ 0 :: tail) =
            done ++ (List.replicate k space ++ (w ++ 0 :: rest') ++ 0 :: tail) := by simp
        rw [place, shape] at later found
        rw [if_neg (by decide)] at step
        refine ⟨List.replicate k space ++ (w ++ 0 :: rest'), (done.length + k) :: argv, ?_, ?_, ?_⟩
        · have same : done ++ List.replicate k space ++ w ++ [0] ++ (rest ++ 0 :: tail) =
              done ++ List.replicate k space ++ w ++ 0 :: (rest ++ 0 :: tail) := by simp
          rw [same] at later
          rw [later, ok_bind] at step
          rw [← step]
          simp
        · simp [length]
        · rw [words_blanks, words_first some_ whole, List.take_succ_cons]
          refine .cons ⟨Nat.le_add_right _ _, ?_, rest' ++ 0 :: tail, ?_, plainW⟩ ?_
          · have long := List.length_pos_iff.mpr some_
            simp only [List.length_append, List.length_cons, List.length_replicate]
            omega
          · simp [List.drop_append]
          · apply found.imp
            rintro start word ⟨low, high, ends⟩
            refine ⟨by omega, ?_, ends⟩
            simp only [List.length_append, List.length_cons, List.length_replicate]
            omega

end Parsing

section Joining

theorem copyArg_word (buf filled room w : List UInt8) (s fuel : Nat) (ends : Terminated (buf.drop s) w)
    (fits : w.length ≤ room.length) (enough : w.length < fuel) :
    copyArg buf fuel s (filled ++ room) filled.length =
      .ok (filled ++ w ++ room.drop w.length, filled.length + w.length) := by
  induction w generalizing filled room s fuel with
  | nil =>
      obtain ⟨fuel, rfl⟩ := Nat.exists_eq_succ_of_ne_zero (Nat.ne_of_gt enough)
      obtain ⟨rest, shape, _⟩ := ends
      have here : buf[s]? = some 0 := by
        have first := congrArg (fun l => l[0]?) shape
        simpa using first
      rw [copyArg, here, fetch_some, ok_bind, if_neg (not_not_intro rfl)]
      simp
  | cons c w ih =>
      obtain ⟨fuel, rfl⟩ := Nat.exists_eq_succ_of_ne_zero (Nat.ne_of_gt (Nat.zero_lt_of_lt enough))
      obtain ⟨rest, shape, plain⟩ := ends
      simp only [List.mem_cons, not_or] at plain
      have here : buf[s]? = some c := by
        have first := congrArg (fun l => l[0]?) shape
        simpa using first
      have behind : Terminated (buf.drop (s + 1)) w := by
        refine ⟨rest, ?_, plain.2⟩
        rw [← List.drop_drop, shape, List.cons_append, List.drop_succ_cons, List.drop_zero]
      obtain ⟨old, room, rfl⟩ := List.exists_cons_of_ne_nil (List.ne_nil_of_length_pos
        (Nat.lt_of_lt_of_le (Nat.succ_pos w.length) fits))
      have later := ih (filled ++ [c]) room (s + 1) fuel behind (Nat.le_of_succ_le_succ fits)
        (Nat.lt_of_succ_lt_succ enough)
      rw [copyArg, here, fetch_some, ok_bind, if_pos (Ne.symm plain.1), storeAt_next, ok_bind]
      rw [List.length_append, List.length_singleton, List.append_assoc] at later
      rw [List.singleton_append] at later
      rw [later, List.length_cons, List.drop_succ_cons]
      simp [Nat.add_assoc, Nat.add_comm 1]

theorem drop_cons {argv : List Nat} {i s : Nat} {rest : List Nat} (shape : argv.drop i = s :: rest) :
    argv[i]? = some s ∧ argv.drop (i + 1) = rest := by
  constructor
  · have first := congrArg (fun l => l[0]?) shape
    simpa using first
  · rw [← List.drop_drop, shape, List.drop_succ_cons, List.drop_zero]

theorem token_short {buf w : List UInt8} {s : Nat} (ends : Terminated (buf.drop s) w) :
    w.length < buf.length + 1 := by
  obtain ⟨rest, shape, _⟩ := ends
  have length := congrArg List.length shape
  simp only [List.length_drop, List.length_append, List.length_cons] at length
  omega

/-- The trips behind the first: a space and a token each, then the terminator. -/
theorem joinArgsFrom_later (buf : List UInt8) (argv : List Nat) (start i : Nat) (past : start < i)
    (filled room : List UInt8) (ws : List (List UInt8))
    (found : List.Forall₂ (fun s w => Terminated (buf.drop s) w) (argv.drop i) ws)
    (fits : (ws.flatMap fun w => space :: w).length < room.length) :
    joinArgsFrom buf argv start ws.length i (filled ++ room) filled.length =
      .ok (filled ++ ws.flatMap (fun w => space :: w) ++
        0 :: room.drop ((ws.flatMap fun w => space :: w).length + 1)) := by
  induction ws generalizing filled room i with
  | nil =>
      obtain ⟨old, room, rfl⟩ := List.exists_cons_of_ne_nil (List.ne_nil_of_length_pos fits)
      rw [List.length_nil, joinArgsFrom, storeAt_next]
      simp
  | cons w ws ih =>
      obtain ⟨old, room, rfl⟩ := List.exists_cons_of_ne_nil (List.ne_nil_of_length_pos
        (Nat.lt_of_le_of_lt (Nat.zero_le _) fits))
      rw [List.flatMap_cons] at fits ⊢
      simp only [List.length_append, List.length_cons] at fits
      cases shape : argv.drop i with
      | nil =>
          rw [shape] at found
          cases found
      | cons s rest =>
          rw [shape] at found
          obtain ⟨ends, later⟩ := List.forall₂_cons.mp found
          obtain ⟨here, tail⟩ := drop_cons shape
          -- the token goes behind its separator
          have copied := copyArg_word buf (filled ++ [space]) room w s (buf.length + 1) ends (by omega)
            (token_short ends)
          have joined := ih (i + 1) (Nat.lt_succ_of_lt past) (filled ++ [space] ++ w) (room.drop w.length)
            (by rw [tail]; exact later) (by rw [List.length_drop]; omega)
          simp only [List.length_append, List.length_singleton] at copied joined
          rw [List.append_assoc filled, List.singleton_append] at copied
          rw [List.length_cons, joinArgsFrom, if_pos past, storeAt_next, ok_bind, pure_ok, ok_bind]
          dsimp only
          rw [here, fetch_some, ok_bind, copied, ok_bind]
          dsimp only
          rw [joined, List.drop_drop]
          generalize (ws.flatMap fun w => space :: w) = text
          have length : (space :: w ++ text).length + 1 = w.length + (text.length + 1) + 1 := by
            simp only [List.length_append, List.length_cons]
            omega
          rw [length, List.drop_succ_cons]
          simp

/-- `join_args` fills the front of its buffer with the tokens from `start` on. -/
theorem joinArgsInto_joins (buf dst : List UInt8) (argv : List Nat) (start : Nat) (ws : List (List UInt8))
    (found : List.Forall₂ (fun s w => Terminated (buf.drop s) w) (argv.drop start) ws)
    (fits : ([space].intercalate ws).length < dst.length) :
    joinArgsInto buf dst argv start argv.length =
      .ok ([space].intercalate ws ++ 0 :: dst.drop (([space].intercalate ws).length + 1)) := by
  have trips : argv.length - start = ws.length := by
    rw [← List.length_drop]
    exact found.length_eq
  rw [joinArgsInto, trips]
  cases ws with
  | nil =>
      obtain ⟨old, dst, rfl⟩ := List.exists_cons_of_ne_nil (List.ne_nil_of_length_pos fits)
      rw [List.length_nil, joinArgsFrom]
      exact storeAt_next [] dst old 0
  | cons w ws =>
      rw [joined_cons] at fits ⊢
      simp only [List.length_append] at fits
      cases shape : argv.drop start with
      | nil =>
          rw [shape] at found
          cases found
      | cons s rest =>
          rw [shape] at found
          obtain ⟨ends, later⟩ := List.forall₂_cons.mp found
          obtain ⟨here, tail⟩ := drop_cons shape
          have copied := copyArg_word buf [] dst w s (buf.length + 1) ends (by omega) (token_short ends)
          have joined := joinArgsFrom_later buf argv start (start + 1) (Nat.lt_succ_self start) w
            (dst.drop w.length) ws (by rw [tail]; exact later) (by rw [List.length_drop]; omega)
          rw [List.nil_append, List.nil_append, List.length_nil, Nat.zero_add] at copied
          rw [List.length_cons, joinArgsFrom, if_neg (Nat.lt_irrefl start), pure_ok, ok_bind]
          dsimp only
          rw [here, fetch_some, ok_bind, copied, ok_bind]
          dsimp only
          rw [joined, List.drop_drop, List.length_append]
          rfl

end Joining

theorem joinArgs_eq (ws : List (List UInt8)) : joinArgs ws = [space].intercalate ws := by
  induction ws with
  | nil => rfl
  | cons w rest ih =>
      cases rest with
      | nil => simp [joinArgs]
      | cons next rest => simp [joinArgs, ih]

/-- `parse_args` finds the first 16 words of a line, each cut out of the line in
place, and `join_args` writes any tail of them with single spaces, inside a buffer
as long as the line's. -/
theorem tokens_exact (line tail : List UInt8) (plain : 0 ∉ line) (short : line.length ≤ maxLine - 1) :
    ∃ buf argv, parseArgs (line ++ 0 :: tail) maxArgs = .ok (buf, argv) ∧
      argv.length = min 16 (words space line).length ∧
      List.Forall₂ (PointsAt buf 0 line.length) argv ((words space line).take 16) ∧
      ∀ start ≤ argv.length, ∀ dst : List UInt8, dst.length = maxLine →
        ∃ text, text = [space].intercalate (((words space line).take 16).drop start) ∧ text.length < maxLine ∧
          joinArgsInto buf dst argv start argv.length = .ok (text ++ 0 :: dst.drop (text.length + 1)) := by
  obtain ⟨line', argv, parsed, _, found⟩ := parseArgsFrom_words maxArgs [] line tail plain
  simp only [List.nil_append, List.length_nil, Nat.zero_add] at parsed found
  refine ⟨line' ++ 0 :: tail, argv, parsed, ?_, found, ?_⟩
  · rw [found.length_eq, List.length_take]
    rfl
  · intro start _ dst room
    have fits : ([space].intercalate (((words space line).take 16).drop start)).length < maxLine := by
      have bound := joined_words_length space line (((words space line).take 16).drop start)
        ((List.drop_sublist _ _).trans (List.take_sublist _ _))
      simp only [maxLine] at short ⊢
      omega
    refine ⟨_, rfl, fits, ?_⟩
    apply joinArgsInto_joins
    · exact (List.forall₂_drop start found).imp fun _ _ points => points.2.2
    · rw [room]
      exact fits

def paddedLine : List UInt8 := ascii " rm  a "

theorem tokens_exact_padded : ∃ buf argv, parseArgs (paddedLine ++ 0 :: [7]) maxArgs = .ok (buf, argv) ∧
    argv.length = min 16 (words space paddedLine).length ∧
    List.Forall₂ (PointsAt buf 0 paddedLine.length) argv ((words space paddedLine).take 16) ∧
    ∀ start ≤ argv.length, ∀ dst : List UInt8, dst.length = maxLine →
      ∃ text, text = [space].intercalate (((words space paddedLine).take 16).drop start) ∧
        text.length < maxLine ∧
        joinArgsInto buf dst argv start argv.length = .ok (text ++ 0 :: dst.drop (text.length + 1)) :=
  tokens_exact paddedLine [7] (by decide) (by decide)

/-- What the shell hands to a command. -/
theorem lineArgs_words (line : List UInt8) (plain : 0 ∉ line) :
    lineArgs line = .ok ((words space line).take maxArgs) := by
  obtain ⟨line', argv, parsed, _, found⟩ := parseArgsFrom_words maxArgs [] line [] plain
  simp only [List.nil_append, List.length_nil, Nat.zero_add] at parsed found
  rw [lineArgs, parseArgs, parsed, ok_bind]
  have texts : argv.map (argText (line' ++ [0])) = (words space line).take maxArgs := by
    rw [← List.forall₂_eq_eq_eq]
    apply List.forall₂_map_left_iff.mpr (found.imp _)
    rintro start w ⟨_, _, ends⟩
    exact ends.text_eq
  exact congrArg Except.ok texts

end KehindeKernel
