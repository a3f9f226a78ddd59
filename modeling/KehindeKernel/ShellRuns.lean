import KehindeKernel.Shell
import KehindeKernel.DirectoryRuns
import Mathlib.Data.List.TakeWhile

/-!
Shell sessions keep the two forms of the working directory together: `cwd_path`
looks up to `cwd_ino`, a directory. No command reaches the directories above the
working directory, because their numbers are smaller.
-/

namespace KehindeKernel

open Outcome Bytes DirectoryTree

section Arguments

theorem skipSpaces_ok (front : List UInt8) (fuel p : Nat) (inside : p ≤ front.length)
    (enough : front.length < fuel + p) :
    ∃ q, skipSpaces (front ++ [0]) fuel p = .ok q ∧ q ≤ front.length := by
  induction fuel generalizing p with
  | zero => omega
  | succ fuel ih =>
      by_cases last : p = front.length
      · subst last
        refine ⟨front.length, ?_, Nat.le_refl _⟩
        simp [skipSpaces, space]
      · have before : p < front.length := by omega
        have here : (front ++ [0])[p]? = some front[p] := by
          rw [List.getElem?_append_left before, List.getElem?_eq_getElem before]
        rw [skipSpaces, here, fetch_some, ok_bind]
        by_cases blank : front[p] = space
        · rw [if_pos blank]
          exact ih (p + 1) before (by omega)
        · exact ⟨p, if_neg blank, inside⟩

theorem tokenEnd_ok (front : List UInt8) (fuel p : Nat) (inside : p ≤ front.length)
    (enough : front.length < fuel + p) :
    ∃ q, tokenEnd (front ++ [0]) fuel p = .ok q ∧ q ≤ front.length := by
  induction fuel generalizing p with
  | zero => omega
  | succ fuel ih =>
      by_cases last : p = front.length
      · subst last
        refine ⟨front.length, ?_, Nat.le_refl _⟩
        simp [tokenEnd]
      · have before : p < front.length := by omega
        have here : (front ++ [0])[p]? = some front[p] := by
          rw [List.getElem?_append_left before, List.getElem?_eq_getElem before]
        rw [tokenEnd, here, fetch_some, ok_bind]
        by_cases live : front[p] ≠ 0 ∧ front[p] ≠ space
        · rw [if_pos live]
          exact ih (p + 1) before (by omega)
        · exact ⟨p, if_neg live, inside⟩

theorem cutToken_ok (front : List UInt8) (p : Nat) (inside : p ≤ front.length) :
    ∃ front' q, cutToken (front ++ [0]) p = .ok (front' ++ [0], q) ∧ front'.length = front.length ∧
      q ≤ front.length := by
  by_cases last : p = front.length
  · subst last
    exact ⟨front, front.length, by simp [cutToken], rfl, Nat.le_refl _⟩
  · have before : p < front.length := by omega
    have here : (front ++ [0])[p]? = some front[p] := by
      rw [List.getElem?_append_left before, List.getElem?_eq_getElem before]
    rw [cutToken, here, fetch_some, ok_bind]
    by_cases live : front[p] ≠ 0
    · refine ⟨front.set p 0, p + 1, ?_, List.length_set, before⟩
      rw [if_pos live, List.set_append_left p 0 before]
      rfl
    · exact ⟨front, p, if_neg live, rfl, inside⟩

theorem parseArgsFrom_ok (free : Nat) (front : List UInt8) (p : Nat) (inside : p ≤ front.length) :
    ∃ front' argv, parseArgsFrom free (front ++ [0]) p = .ok (front' ++ [0], argv) ∧
      front'.length = front.length ∧ argv.length ≤ free := by
  induction free generalizing front p with
  | zero =>
      have known : p < (front ++ [0]).length := by rw [List.length_append, List.length_singleton]; omega
      refine ⟨front, [], ?_, rfl, Nat.le_refl _⟩
      rw [parseArgsFrom, List.getElem?_eq_getElem known]
      rfl
  | succ free ih =>
      have known : ∀ q, q ≤ front.length → ∃ c, (front ++ [0])[q]? = some c := by
        intro q below
        have within : q < (front ++ [0]).length := by
          rw [List.length_append, List.length_singleton]
          omega
        exact ⟨_, List.getElem?_eq_getElem within⟩
      have enough : ∀ q, front.length < (front ++ [0]).length + 1 + q := by
        intro q
        rw [List.length_append, List.length_singleton]
        omega
      obtain ⟨c, here⟩ := known p inside
      obtain ⟨start, skipped, insideStart⟩ := skipSpaces_ok front _ p inside (enough p)
      obtain ⟨d, there⟩ := known start insideStart
      obtain ⟨stop, ended, insideStop⟩ := tokenEnd_ok front _ start insideStart (enough start)
      obtain ⟨front1, q, cut, length1, insideQ⟩ := cutToken_ok front stop insideStop
      obtain ⟨front2, argv, rest, length2, short⟩ := ih front1 q (by omega)
      rw [parseArgsFrom, here, fetch_some, ok_bind]
      by_cases done : c = 0
      · exact ⟨front, [], if_pos done, rfl, Nat.zero_le _⟩
      · rw [if_neg done, skipped, ok_bind, there, fetch_some, ok_bind]
        by_cases blank : d = 0
        · exact ⟨front, [], if_pos blank, rfl, Nat.zero_le _⟩
        · refine ⟨front2, start :: argv, ?_, length2.trans length1, Nat.succ_le_succ short⟩
          rw [if_neg blank, ended, ok_bind, cut, ok_bind]
          dsimp only
          rw [rest]
          rfl

theorem text_plain (bytes : List UInt8) : 0 ∉ text bytes := by
  intro inside
  have live := List.mem_takeWhile_imp inside
  simp at live

theorem text_length (bytes : List UInt8) : (text bytes).length ≤ bytes.length :=
  (List.takeWhile_sublist _).length_le

/-- `parse_args` returns, with strings no longer than the line. -/
theorem lineArgs_ok (line : List UInt8) : ∃ args, lineArgs line = .ok args ∧ args.length ≤ maxArgs ∧
    ∀ arg ∈ args, 0 ∉ arg ∧ arg.length ≤ line.length + 1 := by
  obtain ⟨front, argv, parsed, length, short⟩ := parseArgsFrom_ok maxArgs line 0 (Nat.zero_le _)
  refine ⟨argv.map (argText (front ++ [0])), ?_, by rw [List.length_map]; exact short, ?_⟩
  · rw [lineArgs, parseArgs, parsed]
    rfl
  · intro arg member
    obtain ⟨start, _, rfl⟩ := List.mem_map.mp member
    refine ⟨text_plain _, Nat.le_trans (text_length _) ?_⟩
    rw [List.length_drop, List.length_append, List.length_singleton, length]
    exact Nat.sub_le _ _

theorem joinArgs_length (bound : Nat) (args : List (List UInt8)) (short : ∀ arg ∈ args, arg.length ≤ bound) :
    (joinArgs args).length ≤ args.length * (bound + 1) := by
  induction args with
  | nil => exact Nat.zero_le _
  | cons word rest ih =>
      have first := short word List.mem_cons_self
      have later := ih fun arg member => short arg (List.mem_cons_of_mem word member)
      cases rest with
      | nil =>
          simp only [joinArgs, List.length_singleton, Nat.one_mul]
          omega
      | cons next rest =>
          have more : (joinArgs (word :: next :: rest)).length =
              word.length + ((joinArgs (next :: rest)).length + 1) := by
            simp [joinArgs]
          rw [more, List.length_cons, Nat.succ_mul]
          omega

theorem cText_spec (bytes line : List UInt8) (ends : Terminated bytes line) : cText bytes = .ok line := by
  rw [cText, strlen_spec bytes line ends, ok_bind]
  obtain ⟨rest, rfl, _⟩ := ends
  rw [List.take_left]
  rfl

end Arguments

variable {σ : Type}

/-- The path of `arg` seen from the working directory. -/
def fullPath (t : Shell σ) (arg : List UInt8) : List UInt8 :=
  if arg.head? = some slash then arg
  else if t.cwdPath.getLast? ≠ some slash then t.cwdPath ++ slash :: arg
  else t.cwdPath ++ arg

structure ShellOk (raw : Nat → Region) (t : Shell σ) (nodes : List Node) : Prop where
  mounted : Mounted raw t.fs nodes
  absolute : t.cwdPath.head? = some slash
  plain : 0 ∉ t.cwdPath
  here : lookupResult nodes t.cwdPath = t.cwdIno
  dir : (dirsOf nodes t.cwdIno).isSome

/-- Only the output differs. -/
structure OnlyPrints (t t' : Shell σ) : Prop where
  fs : t'.fs = t.fs
  cwdIno : t'.cwdIno = t.cwdIno
  cwdPath : t'.cwdPath = t.cwdPath

theorem OnlyPrints.trans {t t1 t2 : Shell σ} (first : OnlyPrints t t1) (second : OnlyPrints t1 t2) :
    OnlyPrints t t2 :=
  ⟨second.fs.trans first.fs, second.cwdIno.trans first.cwdIno, second.cwdPath.trans first.cwdPath⟩

theorem onlyPrints_refl (t : Shell σ) : OnlyPrints t t := ⟨rfl, rfl, rfl⟩

theorem onlyPrints_puts (t : Shell σ) (bytes : List UInt8) : OnlyPrints t (t.puts bytes) := ⟨rfl, rfl, rfl⟩

variable {raw : Nat → Region} {t t' : Shell σ} {nodes nodes' : List Node}

theorem ShellOk.prints (ok : ShellOk raw t nodes) (prints : OnlyPrints t t') : ShellOk raw t' nodes := by
  obtain ⟨fs, cwdIno, cwdPath⟩ := prints
  exact ⟨fs ▸ ok.mounted, cwdPath ▸ ok.absolute, cwdPath ▸ ok.plain, by rw [cwdPath, cwdIno]; exact ok.here,
    cwdIno ▸ ok.dir⟩

theorem ShellOk.cwd_ne_nil (ok : ShellOk raw t nodes) : t.cwdPath ≠ [] := by
  intro none
  have absolute := ok.absolute
  rw [none] at absolute
  contradiction

theorem joinCwd_ok (ok : ShellOk raw t nodes) (arg : List UInt8) (relative : arg.head? ≠ some slash) :
    joinCwd t arg = .ok (fullPath t arg) := by
  rw [joinCwd, fullPath, if_neg relative, List.getLast?_eq_some_getLast ok.cwd_ne_nil, fetch_some, ok_bind]
  by_cases last : t.cwdPath.getLast ok.cwd_ne_nil = slash
  · simp [last]
  · simp [last]

theorem fullPath_plain (ok : ShellOk raw t nodes) (arg : List UInt8) (plain : 0 ∉ arg) :
    0 ∉ fullPath t arg := by
  have different : (0 : UInt8) ≠ slash := by decide
  unfold fullPath
  split
  · exact plain
  · split
    · simp [ok.plain, plain, different]
    · simp [ok.plain, plain]

/-- `resolve_path` looks up the full path. -/
theorem resolvePath_ok (ok : ShellOk raw t nodes) (arg : List UInt8) (plain : 0 ∉ arg) :
    resolvePath t arg = .ok (lookupResult nodes (fullPath t arg)) := by
  have lookup : ∀ line, 0 ∉ line → fsLookup t.fs (line ++ [0]) = .ok (lookupResult nodes line) :=
    fun line clean => fsLookup_spec ok.mounted.ok.shape ok.mounted.ok.tree (line ++ [0]) line
      (terminated_cstring line clean)
  rw [resolvePath]
  by_cases absolute : arg.head? = some slash
  · rw [if_pos absolute, lookup arg plain, fullPath, if_pos absolute]
  · rw [if_neg absolute, joinCwd_ok ok arg absolute, ok_bind]
    exact lookup _ (fullPath_plain ok arg plain)

theorem fullPath_absolute (ok : ShellOk raw t nodes) (arg : List UInt8) :
    (fullPath t arg).head? = some slash := by
  obtain ⟨c, rest, split⟩ := List.exists_cons_of_ne_nil ok.cwd_ne_nil
  have first := ok.absolute
  rw [split, List.head?_cons] at first
  unfold fullPath
  by_cases absolute : arg.head? = some slash
  · rw [if_pos absolute]
    exact absolute
  · rw [if_neg absolute, split]
    by_cases last : (c :: rest).getLast? ≠ some slash
    · rw [if_pos last]
      exact first
    · rw [if_neg last]
      exact first

theorem ShellOk.known (ok : ShellOk raw t nodes) : ∃ n, findNode nodes t.cwdIno = some n ∧
    n.inode.inodeType = 2 ∧ 1 ≤ t.cwdIno ∧ t.cwdIno < t.fs.nextIno := by
  obtain ⟨l, listed⟩ := Option.isSome_iff_exists.mp ok.dir
  obtain ⟨n, found, dir, _⟩ := dirsOf_eq_some listed
  obtain ⟨member, number⟩ := findNode_some found
  have numbered := ok.mounted.ok.shape.numbered n member
  rw [number] at numbered
  exact ⟨n, found, dir, numbered⟩

/-- A call that works on the working directory or on none leaves every directory
with a smaller number as it is. -/
theorem ShellOk.below (ok : ShellOk raw t nodes) (call : FsCall) (out : FsResult)
    (effect : Effect raw t.fs nodes call out nodes') (site : ∀ k, call.site = some k → k = t.cwdIno)
    (k : Nat) (less : k < t.cwdIno) : dirsOf nodes' k = dirsOf nodes k := by
  obtain ⟨_, _, _, _, known⟩ := ok.known
  apply effect_frame call out effect k (Nat.lt_trans less known)
  intro atSite
  exact Nat.ne_of_lt less (site k atSite)

/-- The working directory is where it was after a call that works on it or on none. -/
theorem ShellOk.effect (ok : ShellOk raw t nodes) (fs : Fs σ) (call : FsCall) (out : FsResult)
    (effect : Effect raw t.fs nodes call out nodes') (kept : FsOk raw fs nodes')
    (site : ∀ k, call.site = some k → k = t.cwdIno) : ShellOk raw { t with fs := fs } nodes' := by
  have below := ok.below call out effect site
  obtain ⟨n, found, isDir, positive, _⟩ := ok.known
  obtain ⟨mounted, absolute, plain, here, dir⟩ := ok
  obtain ⟨n', found', same⟩ := effect_type mounted.ok call out effect t.cwdIno n found
  refine ⟨mounted.effect kept call out effect, absolute, plain, ?_, ?_⟩
  · rw [← here]
    unfold lookupResult at here ⊢
    split
    · rfl
    · split
      · rfl
      · rename_i some_ bare
        rw [if_neg some_, if_neg bare] at here
        cases reached : walk (dirsOf nodes) rootIno ((components t.cwdPath).take 16) with
        | none =>
            rw [reached] at here
            rw [← here] at positive
            exact absurd positive (by decide)
        | some last =>
            rw [reached] at here
            have same : last = t.cwdIno := here
            rw [walk_below (dirsOf nodes) (dirsOf_grows mounted.ok.tree) (dirsOf nodes') _ _ last reached
              fun k less => below k (same ▸ less)]
  · rw [dirsOf_dir found' (same.trans isDir)]
    rfl

section Printing

theorem cText_text (bytes : List UInt8) (ends : 0 ∈ bytes) : cText bytes = .ok (text bytes) :=
  cText_spec bytes _ (terminated_text bytes ends)

/-- `ls` prints every entry and stops behind the last one. -/
theorem lsEntries_ok (ok : FsOk raw t.fs nodes) (dirIno fuel i : Nat) (any : Bool)
    (enough : ∀ n, findNode nodes dirIno = some n → n.inode.inodeType = 2 → n.inode.inodeSize < i + fuel)
    (some_ : 0 < fuel) : ∃ t', lsEntries dirIno fuel i any t = .ok t' ∧ OnlyPrints t t' := by
  induction fuel generalizing i any t with
  | zero => omega
  | succ fuel ih =>
      -- every answer but 1 ends the listing
      have stops : ∀ value : Int, value ≠ 1 → ∀ entry, fsReaddir t.fs dirIno i true = .ok (value, entry) →
          ∃ t', lsEntries dirIno (fuel + 1) i any t = .ok t' ∧ OnlyPrints t t' := by
        intro value different entry read
        refine ⟨if any then t else t.puts (ascii "(empty)\r\n"), ?_, ?_⟩
        · rw [lsEntries, read, ok_bind]
          exact if_neg different
        · split
          · exact onlyPrints_refl t
          · exact onlyPrints_puts t _
      have read := fsReaddir_spec ok dirIno i true
      cases found : findNode nodes dirIno with
      | none =>
          rw [found] at read
          exact stops (-1) (by decide) none read
      | some n =>
          rw [found, readdirResult] at read
          by_cases dir : n.inode.inodeType = 2
          · by_cases inside : i < n.inode.inodeSize
            · have slots := ok.tree.slots n (findNode_some found).1 dir
              have bound := enough n found dir
              obtain ⟨stat, stated⟩ : ∃ r, fsStat t.fs (slotOf n.chain i).inodeId false true = .ok r :=
                ⟨_, fsStat_spec ok.shape _ false true⟩
              obtain ⟨value, size, type⟩ := stat
              obtain ⟨t', done, prints⟩ := ih (t := t.puts (text (slotOf n.chain i).name ++
                  (if type = some 2 then ascii "/" else []) ++ newline)) ok (i + 1) true
                (fun m same dirM => by have := enough m same dirM; omega) (by omega)
              refine ⟨t', ?_, (onlyPrints_puts t _).trans prints⟩
              simp only [dir, not_true_eq_false, ne_eq, Bool.true_eq_false, or_self, ↓reduceIte, inside] at read
              simp only [lsEntries, read, ok_bind, ↓reduceIte, fetch_some,
                cText_text _ (slots.named i inside).1, stated]
              exact done
            · simp only [dir, not_true_eq_false, ne_eq, Bool.true_eq_false, or_self, ↓reduceIte, inside] at read
              exact stops 0 (by decide) none read
          · rw [if_pos (Or.inl dir)] at read
            exact stops (-1) (by decide) none read

/-- `cat` reads the file chunk by chunk to its end. -/
theorem catChunks_ok (ok : FsOk raw t.fs nodes) (ino fuel offset : Nat) (low : offset < 2 ^ 32)
    (enough : ∀ n, findNode nodes ino = some n → n.inode.inodeType = 1 →
      n.inode.inodeSize + 127 ≤ offset + 127 * fuel)
    (some_ : 0 < fuel) : ∃ t', catChunks ino fuel offset t = .ok t' ∧ OnlyPrints t t' := by
  induction fuel generalizing offset t with
  | zero => omega
  | succ fuel ih =>
      -- what the loop does once a read returns no bytes
      have stops : ∀ value : Int, ¬ value > 0 → ∀ data,
          fsRead t.fs ino offset 127 (some 128) = .ok (value, data) →
          ∃ t', catChunks ino (fuel + 1) offset t = .ok t' ∧ OnlyPrints t t' := by
        intro value ended data read
        by_cases failed : value < 0
        · refine ⟨t.puts (ascii "cat: read error\r\n"), ?_, onlyPrints_puts t _⟩
          rw [catChunks, read, ok_bind]
          exact (if_neg ended).trans (if_pos failed)
        · refine ⟨t.puts newline, ?_, onlyPrints_puts t _⟩
          rw [catChunks, read, ok_bind]
          exact (if_neg ended).trans (if_neg failed)
      have read := fsRead_spec ok.shape ok.tree ino offset 127 128 (Or.inl (by omega)) (by decide)
      cases found : findNode nodes ino with
      | none =>
          rw [found] at read
          exact stops (-1) (by decide) [] read
      | some n =>
          rw [found, readResult] at read
          by_cases file : n.inode.inodeType = 1
          · rw [if_neg (not_not.mpr file)] at read
            by_cases far : n.chain.length < offset / payloadSize
            · rw [if_pos far] at read
              exact stops (-1) (by decide) [] read
            · rw [if_neg far] at read
              by_cases ended : n.inode.inodeSize ≤ offset
              · rw [if_pos ended] at read
                exact stops 0 (by decide) [] read
              · rw [if_neg ended] at read
                have small := ok.shape.file_small ok.tree n (findNode_some found).1
                  (by rw [file]; decide)
                have bound := enough n found file
                obtain ⟨count, counted⟩ : ∃ c, c = min 127 (n.inode.inodeSize - offset) := ⟨_, rfl⟩
                rw [← counted] at read
                obtain ⟨data, named⟩ : ∃ l, l = (List.range count).map fun i => n.byte (offset + i) :=
                  ⟨_, rfl⟩
                rw [← named] at read
                have positive : (count : Int) > 0 := by omega
                obtain ⟨t', done, prints⟩ := ih (t := t.puts (text (data ++ [0]))) ok (offset + count)
                  (by omega) (fun m same _ => by
                    obtain rfl : n = m := Option.some.inj (found.symm.trans same)
                    omega) (by omega)
                refine ⟨t', ?_, (onlyPrints_puts t _).trans prints⟩
                simp only [catChunks, read, ok_bind, if_pos positive, Int.toNat_natCast,
                  cText_text (data ++ [0]) (by simp)]
                exact done
          · rw [if_pos file] at read
            exact stops (-1) (by decide) [] read

end Printing

section Commands

/-- The call of `cmd_mkdir` and `cmd_touch`. -/
def makeCall (t : Shell σ) (inodeType : UInt8) : List (List UInt8) → Option FsCall
  | [] => none
  | name :: _ =>
      if name.head? = some slash then none else some (.create t.cwdIno (name ++ [0]) inodeType)

def writeCall (t : Shell σ) : List (List UInt8) → Option FsCall
  | file :: word :: rest =>
      match resolvePath t file with
      | .error _ => none
      | .ok ino =>
          let text := joinArgs (word :: rest)
          if ino = invalidIno then none else some (.write ino 0 text.length (some (text ++ [0])))
  | _ => none

/-- The call of a command that may append blocks. -/
def appendingCall (t : Shell σ) (verb : List UInt8) (args : List (List UInt8)) : Option FsCall :=
  if seq verb (ascii "mkdir") then makeCall t 2 args
  else if seq verb (ascii "touch") then makeCall t 1 args
  else if seq verb (ascii "write") then writeCall t args
  else none

/-- Blocks that a line appends have null links. -/
def LineLinks (t : Shell σ) (typed : Typed) : Prop :=
  ∀ verb args call, lineArgs typed.line = .ok (verb :: args) → appendingCall t verb args = some call →
    NullLinks t.fs call

/-- What every command does to the shell. -/
def Serves (raw : Nat → Region) (r : Run (Shell σ)) : Prop :=
  Guarded (fun t => ∃ nodes, ShellOk raw t nodes) r

theorem ShellOk.serves_prints (ok : ShellOk raw t nodes) (r : Run (Shell σ))
    (returned : ∃ t', r = .ok t' ∧ OnlyPrints t t') : Serves raw r := by
  obtain ⟨t', rfl, prints⟩ := returned
  exact .ok t' ⟨nodes, ok.prints prints⟩

theorem ShellOk.serves_puts (ok : ShellOk raw t nodes) (bytes : List UInt8) :
    Serves raw (pure (t.puts bytes)) :=
  ok.serves_prints _ ⟨_, rfl, onlyPrints_puts t bytes⟩

theorem ShellOk.serves_or_puts (ok : ShellOk raw t nodes) (failed : Prop) [Decidable failed]
    (bytes : List UInt8) : Serves raw (pure (if failed then t.puts bytes else t)) := by
  split
  · exact ok.serves_puts bytes
  · exact .ok t ⟨nodes, ok⟩

theorem serves_ite {c : Prop} [Decidable c] {left right : Run (Shell σ)} (yes : c → Serves raw left)
    (no : ¬ c → Serves raw right) : Serves raw (if c then left else right) := by
  split
  · exact yes ‹_›
  · exact no ‹_›

theorem nullLinks_prints (prints : OnlyPrints t t') (typed : Typed) (links : LineLinks t typed) :
    LineLinks t' typed := by
  obtain ⟨fs, cwdIno, cwdPath, out⟩ := t
  obtain ⟨fs', cwdIno', cwdPath', out'⟩ := t'
  obtain ⟨rfl, rfl, rfl⟩ := prints
  exact links

theorem dir_size_small (ok : FsOk raw t.fs nodes) (ino : Nat) (n : Node)
    (found : findNode nodes ino = some n) (dir : n.inode.inodeType = 2) : n.inode.inodeSize < walkFuel := by
  obtain ⟨member, _⟩ := findNode_some found
  have room : n.inode.inodeSize ≤ 15 * n.chain.length := (ok.tree.slots n member dir).room
  have short := ok.shape.chain_length n member
  have fuel : walkFuel = 65537 := by decide
  omega

theorem file_size_small (ok : FsOk raw t.fs nodes) (ino : Nat) (n : Node)
    (found : findNode nodes ino = some n) (file : n.inode.inodeType = 1) :
    n.inode.inodeSize ≤ 4088 * 256 :=
  ok.shape.file_small ok.tree n (findNode_some found).1 (by rw [file]; decide)

theorem cmdLs_ok (ok : ShellOk raw t nodes) (args : List (List UInt8)) (plain : ∀ arg ∈ args, 0 ∉ arg) :
    Serves raw (cmdLs t args) := by
  have lists : ∀ dirIno, Serves raw (lsEntries dirIno walkFuel 0 false t) := fun dirIno =>
    ok.serves_prints _ (lsEntries_ok ok.mounted.ok dirIno walkFuel 0 false
      (fun n found dir => by rw [Nat.zero_add]; exact dir_size_small ok.mounted.ok dirIno n found dir)
      (by decide))
  cases args with
  | nil => exact lists t.cwdIno
  | cons path rest =>
      rw [cmdLs, resolvePath_ok ok path (plain path List.mem_cons_self), ok_bind]
      split
      · exact ok.serves_puts _
      · exact lists _

theorem cmdCat_ok (ok : ShellOk raw t nodes) (args : List (List UInt8)) (plain : ∀ arg ∈ args, 0 ∉ arg) :
    Serves raw (cmdCat t args) := by
  cases args with
  | nil => exact ok.serves_puts _
  | cons file rest =>
      rw [cmdCat, resolvePath_ok ok file (plain file List.mem_cons_self), ok_bind]
      split
      · exact ok.serves_puts _
      · exact ok.serves_prints _ (catChunks_ok ok.mounted.ok _ walkFuel 0 (by decide) (fun n found isFile => by
          have small := file_size_small ok.mounted.ok _ n found isFile
          have fuel : walkFuel = 65537 := by decide
          omega) (by decide))

theorem cmdCd_ok (ok : ShellOk raw t nodes) (args : List (List UInt8)) (plain : ∀ arg ∈ args, 0 ∉ arg) :
    Serves raw (cmdCd t args) := by
  cases args with
  | nil => exact ok.serves_puts _
  | cons target rest =>
      have clean := plain target List.mem_cons_self
      rw [cmdCd, resolvePath_ok ok target clean, ok_bind]
      obtain ⟨newIno, named⟩ : ∃ k, k = lookupResult nodes (fullPath t target) := ⟨_, rfl⟩
      rw [← named]
      split
      · exact ok.serves_puts _
      · rw [fsStat_spec ok.mounted.ok.shape newIno false true, ok_bind]
        cases found : findNode nodes newIno with
        | none =>
            dsimp only
            rw [if_pos (by simp)]
            exact ok.serves_puts _
        | some n =>
            dsimp only
            by_cases dir : n.inode.inodeType = 2
            · have moved : ShellOk raw { t with cwdIno := newIno, cwdPath := fullPath t target } nodes :=
                ⟨ok.mounted, fullPath_absolute ok target, fullPath_plain ok target clean, named.symm, by
                  rw [dirsOf_dir found dir]
                  rfl⟩
              rw [if_neg (by simp [dir])]
              by_cases absolute : target.head? = some slash
              · rw [if_pos absolute]
                rw [fullPath, if_pos absolute] at moved
                exact .ok _ ⟨nodes, moved⟩
              · rw [if_neg absolute, joinCwd_ok ok target absolute, ok_bind]
                exact .ok _ ⟨nodes, moved⟩
            · rw [if_pos (by simp [dir])]
              exact ok.serves_puts _

theorem cmdRm_ok (ok : ShellOk raw t nodes) (args : List (List UInt8)) (plain : ∀ arg ∈ args, 0 ∉ arg) :
    Serves raw (cmdRm t args) := by
  cases args with
  | nil => exact ok.serves_puts _
  | cons name rest =>
      rw [cmdRm]
      split
      · exact ok.serves_puts _
      · have ends := terminated_cstring name (plain name List.mem_cons_self)
        apply (fsUnlink_effect ok.mounted.ok t.cwdIno ends).bind
        rintro ⟨value, fs⟩ ⟨nodes', effect, kept⟩
        have ok' := ok.effect fs _ _ effect kept fun k site => (Option.some.inj site).symm
        exact ok'.serves_or_puts (value < 0) _

variable [Backing σ]

theorem cmdMake_ok (ok : ShellOk raw t nodes) (verb : String) (inodeType : UInt8)
    (args : List (List UInt8)) (plain : ∀ arg ∈ args, 0 ∉ arg)
    (links : ∀ call, makeCall t inodeType args = some call → NullLinks t.fs call) :
    Serves raw (cmdMake verb inodeType t args) := by
  cases args with
  | nil => exact ok.serves_puts _
  | cons name rest =>
      rw [cmdMake]
      split
      · exact ok.serves_puts _
      · rename_i relative
        have ends := terminated_cstring name (plain name List.mem_cons_self)
        have link := links _ (by rw [makeCall, if_neg relative])
        apply (fsCreate_effect ok.mounted.ok ends link).bind
        rintro ⟨number, fs⟩ ⟨nodes', effect, kept⟩
        have ok' := ok.effect fs _ _ effect kept fun k site => (Option.some.inj site).symm
        exact ok'.serves_or_puts (number = invalidIno) _

theorem cmdWrite_ok (ok : ShellOk raw t nodes) (args : List (List UInt8))
    (plain : ∀ arg ∈ args, 0 ∉ arg) (few : args.length ≤ maxArgs)
    (short : ∀ arg ∈ args, arg.length ≤ maxLine)
    (links : ∀ call, writeCall t args = some call → NullLinks t.fs call) : Serves raw (cmdWrite t args) := by
  rcases args with _ | ⟨file, _ | ⟨word, rest⟩⟩
  · exact ok.serves_puts _
  · exact ok.serves_puts _
  · have resolved := resolvePath_ok ok file (plain file List.mem_cons_self)
    rw [cmdWrite, resolved, ok_bind]
    split
    · exact ok.serves_puts _
    · rename_i valid
      have long := joinArgs_length maxLine (word :: rest) fun arg member =>
        short arg (List.mem_cons_of_mem file member)
      have small : 0 + (joinArgs (word :: rest)).length < 2 ^ 64 := by
        simp only [List.length_cons, maxArgs, maxLine] at *
        omega
      have link := links _ (by rw [writeCall, resolved]; exact if_neg valid)
      apply (fsWrite_effect ok.mounted.ok (Or.inl small) (by simp) link).bind
      rintro ⟨value, fs⟩ ⟨nodes', effect, kept⟩
      have ok' := ok.effect fs _ _ effect kept fun k site => by contradiction
      exact ok'.serves_or_puts (value < 0) _

theorem runCommand_ok (ok : ShellOk raw t nodes) (banner : List UInt8) (uptime : Nat) (verb : List UInt8)
    (args : List (List UInt8)) (plain : ∀ arg ∈ args, 0 ∉ arg) (few : args.length ≤ maxArgs)
    (short : ∀ arg ∈ args, arg.length ≤ maxLine)
    (links : ∀ call, appendingCall t verb args = some call → NullLinks t.fs call) :
    Serves raw (runCommand banner t uptime verb args) := by
  have pwd := (onlyPrints_puts t t.cwdPath).trans (onlyPrints_puts _ newline)
  unfold runCommand
  refine serves_ite (fun _ => ok.serves_puts _) fun _ => ?_
  refine serves_ite (fun _ => cmdLs_ok ok args plain) fun _ => ?_
  refine serves_ite (fun _ => ok.serves_prints _ ⟨_, rfl, pwd⟩) fun _ => ?_
  refine serves_ite (fun _ => cmdCd_ok ok args plain) fun _ => ?_
  refine serves_ite (fun mkdir => ?_) fun notMkdir => ?_
  · rw [appendingCall, if_pos mkdir] at links
    exact cmdMake_ok ok "mkdir" 2 args plain links
  rw [appendingCall, if_neg notMkdir] at links
  refine serves_ite (fun touch => ?_) fun notTouch => ?_
  · rw [if_pos touch] at links
    exact cmdMake_ok ok "touch" 1 args plain links
  rw [if_neg notTouch] at links
  refine serves_ite (fun _ => cmdCat_ok ok args plain) fun _ => ?_
  refine serves_ite (fun write => ?_) fun _ => ?_
  · rw [if_pos write] at links
    exact cmdWrite_ok ok args plain few short links
  refine serves_ite (fun _ => cmdRm_ok ok args plain) fun _ => ?_
  refine serves_ite (fun _ => ok.serves_puts _) fun _ => ?_
  refine serves_ite (fun _ => ok.serves_puts _) fun _ => ?_
  refine serves_ite (fun _ => .panic) fun _ => ?_
  exact serves_ite (fun _ => ok.serves_puts _) fun _ => ok.serves_puts _

/-- Every line keeps the shell well formed. -/
theorem shellStep_ok (ok : ShellOk raw t nodes) (banner : List UInt8) (typed : Typed)
    (short : typed.line.length < maxLine) (links : LineLinks t typed) :
    Guarded (fun r => ∃ nodes', ShellOk raw r.2 nodes') (shellStep banner t typed) := by
  have prompts := onlyPrints_puts t (t.cwdPath ++ ascii "$ ")
  have ok' := ok.prints prompts
  have links' := nullLinks_prints prompts typed links
  obtain ⟨args, parsed, few, texts⟩ := lineArgs_ok typed.line
  rw [shellStep]
  split
  · exact .ok _ ⟨nodes, ok'⟩
  · rw [parsed, ok_bind]
    cases args with
    | nil => exact .ok _ ⟨nodes, ok'⟩
    | cons verb args =>
        have served := runCommand_ok ok' banner typed.uptime verb args
          (fun arg member => (texts arg (List.mem_cons_of_mem verb member)).1)
          (Nat.le_trans (Nat.le_succ _) few)
          (fun arg member => Nat.le_trans (texts arg (List.mem_cons_of_mem verb member)).2 short)
          (fun call => links' verb args call parsed)
        exact served.bind fun t' good => .ok _ good

end Commands

theorem shellStart_ok (banner : List UInt8) {fs : Fs σ} (mounted : Mounted raw fs nodes) :
    ShellOk raw (shellStart banner fs) nodes := by
  obtain ⟨r, found, dir⟩ := mounted.root
  refine ⟨mounted, rfl, by simp [shellStart, slash], rfl, ?_⟩
  rw [shellStart, dirsOf_dir found dir]
  rfl

variable [Backing σ]

/-- A session: the shell on a new filesystem, and the lines typed. -/
def shellRun (banner : List UInt8) (back : σ) (raw : Nat → Region) (session : List Typed) :
    Run (List Unit × Shell σ) := do
  let fs ← fsBoot back raw
  Replay.attempt (shellStep banner) (shellStart banner fs) session

/-- What the lines of a session append has null links. -/
def SessionLinks (banner : List UInt8) (back : σ) (raw : Nat → Region) (session : List Typed) : Prop :=
  ∀ fs, fsBoot back raw = .ok fs →
    Replay.Along (shellStep banner) LineLinks (shellStart banner fs) session

/-- In zero-filled memory every link is null. -/
theorem sessionLinks_zero (banner : List UInt8) (back : σ) (raw : Nat → Region) (zeros : ∀ a i, raw a i = 0)
    (session : List Typed) (short : ∀ typed ∈ session, typed.line.length < maxLine) :
    SessionLinks banner back raw session := by
  have null : ∀ (t : Shell σ) typed, (∃ nodes, ShellOk raw t nodes) → LineLinks t typed := by
    rintro t typed ⟨_, ok⟩ _ _ call _ _
    exact nullLinks_null t.fs (by rw [ok.mounted.ok.shape.memory]; exact zero_null zeros) call
  intro fs booted
  obtain ⟨nodes, mounted, _⟩ := (fsBoot_mounted back raw).of_eq booted
  refine Replay.along_of_invariant (shellStep banner) (fun t => ∃ nodes, ShellOk raw t nodes)
    (fun typed => typed.line.length < maxLine) LineLinks (fun t typed holds _ => null t typed holds) ?_
    session _ ⟨nodes, shellStart_ok banner mounted⟩ short
  rintro t typed out next ⟨_, ok⟩ fits done
  exact (shellStep_ok ok banner typed fits (null t typed ⟨_, ok⟩)).of_eq done

/-- What holds at the prompt of a new filesystem and is kept by every line holds after
every session. -/
theorem shellRun_guarded (banner : List UInt8) (back : σ) (raw : Nat → Region) (Inv : Shell σ → Prop)
    (start : ∀ fs, Mounted raw fs [newNode (fsEmpty (kheapInit back) raw) 2] → Inv (shellStart banner fs))
    (kept : ∀ t typed, Inv t → typed.line.length < maxLine → LineLinks t typed →
      Guarded (fun r => Inv r.2) (shellStep banner t typed))
    (session : List Typed) (short : ∀ typed ∈ session, typed.line.length < maxLine)
    (links : SessionLinks banner back raw session) :
    Guarded (fun r => Inv r.2) (shellRun banner back raw session) := by
  unfold shellRun
  apply (fsBoot_mounted back raw).bind_eq
  rintro fs result ⟨nodes, mounted, rfl⟩
  have along := Replay.Along.and session _
    (Replay.along_of_forall (shellStep banner) (fun typed => typed.line.length < maxLine) session
      (shellStart banner fs) short) (links fs result)
  exact Replay.attempt_guarded (shellStep banner) Inv _
    (fun t typed holds ⟨fits, linked⟩ => kept t typed holds fits linked) session _ (start fs mounted) along

/-- Every session keeps the shell well formed. -/
theorem shellRun_ok (banner : List UInt8) (back : σ) (raw : Nat → Region) (session : List Typed)
    (short : ∀ typed ∈ session, typed.line.length < maxLine)
    (links : SessionLinks banner back raw session) :
    Guarded (fun r => ∃ nodes, ShellOk raw r.2 nodes) (shellRun banner back raw session) :=
  shellRun_guarded banner back raw (fun t => ∃ nodes, ShellOk raw t nodes)
    (fun _ mounted => ⟨_, shellStart_ok banner mounted⟩)
    (fun _ typed ⟨_, ok⟩ fits linked => shellStep_ok ok banner typed fits linked) session short links

end KehindeKernel
