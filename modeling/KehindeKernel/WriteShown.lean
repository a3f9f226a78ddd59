import KehindeKernel.FileContents
import KehindeKernel.FileStream
import KehindeKernel.Tokens
import KehindeKernel.WorkingDirectory

/-!
`write` and a `cat` that follows it. A write at offset 0 puts its text in front of
what a longer file held; no command of the shell stores a NUL byte, so `cat` sends
every file to its end.
-/

namespace KehindeKernel

open Outcome Bytes Words

variable {σ : Type}

/-- No regular file holds a NUL byte. -/
def CleanFiles (nodes : List Node) : Prop := ∀ n ∈ nodes, n.inode.inodeType ≠ 2 → 0 ∉ n.contents

section Store

variable {raw : Nat → Region} {s : Fs σ} {nodes nodes' : List Node}

theorem wrote_front {n n' : Node} {src : List UInt8} (room : n.inode.inodeSize ≤ payloadSize * n.chain.length)
    (wrote : Wrote raw n n' 0 src) : n'.contents = src ++ n.contents.drop src.length := by
  have size : n'.inode.inodeSize = max n.inode.inodeSize src.length := by
    rw [wrote.inode.2.2, Nat.zero_add]
  apply List.ext_getElem
  · rw [contents_length, List.length_append, List.length_drop, contents_length, size]
    omega
  · intro i inside inside'
    have below := inside
    rw [contents_length, size] at below
    have here : n'.contents[i] = n'.byte i := by simp [Node.contents]
    by_cases front : i < src.length
    · have stored := wrote.inside i front
      rw [Nat.zero_add] at stored
      rw [List.getElem_append_left front, here, stored, List.getD_eq_getElem _ _ front]
    · have old : i < n.inode.inodeSize := by omega
      rw [List.getElem_append_right (Nat.not_lt.mp front), here]
      rcases wrote.outside i (Or.inr (by omega)) with same | ⟨past, _⟩
      · simp [Node.contents, same, show src.length + (i - src.length) = i by omega]
      · omega

theorem front_plain {src old : List UInt8} (new : 0 ∉ src) (clean : 0 ∉ old) (k : Nat) :
    0 ∉ src ++ old.drop k := by
  rw [List.mem_append]
  rintro (front | tail)
  · exact new front
  · exact clean (List.mem_of_mem_drop tail)

theorem CleanFiles.replace (clean : CleanFiles nodes) (ino : Nat) (n' : Node)
    (here : n'.inode.inodeType ≠ 2 → 0 ∉ n'.contents) : CleanFiles (replaceNode nodes ino n') := by
  intro m member file
  rcases mem_replaceNode member with rfl | ⟨old, _⟩
  · exact here file
  · exact clean m old file

theorem CleanFiles.cons (clean : CleanFiles nodes) (s : Fs σ) (inodeType : UInt8) :
    CleanFiles (newNode s inodeType :: nodes) := by
  intro m member file
  rcases List.mem_cons.mp member with rfl | old
  · exact List.not_mem_nil
  · exact clean m old file

theorem joinArgs_plain (args : List (List UInt8)) (plain : ∀ arg ∈ args, 0 ∉ arg) : 0 ∉ joinArgs args := by
  have blank : (0 : UInt8) ≠ space := by decide
  induction args with
  | nil => exact List.not_mem_nil
  | cons word rest ih =>
      have first := plain word List.mem_cons_self
      have later := ih fun arg member => plain arg (List.mem_cons_of_mem word member)
      cases rest with
      | nil => exact first
      | cons next rest =>
          rw [joinArgs, List.mem_append, List.mem_cons]
          rintro (inWord | same | inRest)
          · exact first inWord
          · exact blank same
          · exact later inRest
          · exact List.cons_ne_nil next rest

theorem effect_clean (tree : Tree nodes) (clean : CleanFiles nodes) {t : Shell σ} {args : List (List UInt8)}
    (plain : ∀ arg ∈ args, 0 ∉ arg) {call : FsCall} (issued : Issues t args call) {out : FsResult}
    (effect : Effect raw s nodes call out nodes') : CleanFiles nodes' := by
  cases issued with
  | create name inodeType member =>
      cases effect with
      | created parentIno name line inodeType n n' ends found creates added =>
          have dir : n'.inode.inodeType = 2 := added.inode.2.1.trans creates.1
          exact (clean.replace _ n' fun file => absurd dir file).cons s inodeType
      | notCreated => exact clean
  | unlink name member =>
      cases effect with
      | unlinked parentIno name line n n' ends found removes removed =>
          have dir : n'.inode.inodeType = 2 := removed.inode.2.1.trans removes.1
          exact clean.replace _ n' fun file => absurd dir file
      | notUnlinked => exact clean
  | write ino words among few =>
      cases effect with
      | wrapped ino offset len src n n' found file wraps longer =>
          obtain ⟨member, _⟩ := findNode_some found
          have notDir : n.inode.inodeType ≠ 2 := by rw [file]; decide
          apply clean.replace
          intro _
          rw [longer.contents (tree.bytes n member notDir)]
          exact clean n member notDir
      | written ino offset len src n n' found file room small wrote =>
          obtain ⟨member, _⟩ := findNode_some found
          have notDir : n.inode.inodeType ≠ 2 := by rw [file]; decide
          rw [List.take_left] at wrote
          have contents := wrote_front (tree.bytes n member notDir) wrote
          apply clean.replace
          intro _
          rw [contents]
          have text := joinArgs_plain words fun arg inWords => plain arg (among inWords)
          exact front_plain text (clean n member notDir) _
      | notWritten => exact clean

theorem fsRead_contents (ok : FsOk raw s nodes) {ino : Nat} {n : Node} (found : findNode nodes ino = some n)
    (file : n.inode.inodeType = 1) (offset : Nat) (within : offset ≤ n.contents.length) :
    fsRead s ino offset 127 (some 128) = .ok ((((n.contents.drop offset).take 127).length : Int),
      (n.contents.drop offset).take 127) := by
  have notDir : n.inode.inodeType ≠ 2 := by rw [file]; decide
  obtain ⟨member, _⟩ := findNode_some found
  have small := ok.shape.file_small ok.tree n member notDir
  have room := ok.tree.bytes n member notDir
  have length := contents_length n
  rw [fsRead_spec ok.shape ok.tree ino offset 127 128 (Or.inl (by omega)) (by decide)]
  by_cases inside : offset < n.contents.length
  · rw [readResult_file ok.tree found file offset 127 inside]
  · have block : ¬ n.chain.length < offset / payloadSize := by
      simp only [payloadSize] at *
      omega
    have ended : n.inode.inodeSize ≤ offset := by omega
    have none_ : n.contents.drop offset = [] := List.drop_eq_nil_of_le (Nat.not_lt.mp inside)
    rw [found, readResult, if_neg (not_not.mpr file), if_neg block, if_pos ended, none_]
    rfl

end Store

section Sessions

variable [Backing σ] {raw : Nat → Region} {t : Shell σ} {nodes : List Node}

theorem ShellOk.step_clean (ok : ShellOk raw t nodes) (clean : CleanFiles nodes) (banner : List UInt8)
    (typed : Typed) (short : typed.line.length < maxLine) (links : LineLinks t typed) :
    Guarded (fun r => ∃ nodes', ShellOk raw r.2 nodes' ∧ CleanFiles nodes') (shellStep banner t typed) := by
  apply (shellStep_ok ok banner typed short links).mono_eq
  rintro ⟨out, next⟩ result ⟨nodes', ok'⟩
  refine ⟨nodes', ok', ?_⟩
  have stays : next.fs = t.fs → CleanFiles nodes' := by
    intro same
    have shape := ok'.mounted.ok.shape
    rw [same] at shape
    exact ok.mounted.ok.shape.unique shape ▸ clean
  rcases shellStep_effect banner typed next out result with same | ⟨verb, args, parsed, effect⟩
  · exact stays same.fs
  · cases effect with
    | prints _ same => exact stays same.fs
    | moves _ _ _ _ _ moved => exact stays moved.fs
    | calls call value _ issued stepped _ _ linked =>
        have prompts := onlyPrints_puts t (t.cwdPath ++ ascii "$ ")
        have links' := nullLinks_prints prompts typed links
        obtain ⟨nodes2, served, kept⟩ := (fsStep_effect (ok.prints prompts).mounted.ok call
          (issues_valid typed short parsed issued).wellFormed (linked fun c => links' verb args c parsed)).of_eq stepped
        obtain ⟨words, parsed', _, texts⟩ := lineArgs_ok typed.line
        obtain rfl : words = verb :: args := Except.ok.inj (parsed'.symm.trans parsed)
        have plain : ∀ arg ∈ args, 0 ∉ arg := fun arg member => (texts arg (List.mem_cons_of_mem verb member)).1
        have clean2 := effect_clean ok.mounted.ok.tree clean plain issued served
        -- the store the call left has one list of nodes
        exact kept.shape.unique ok'.mounted.ok.shape ▸ clean2

theorem shellRun_clean (banner : List UInt8) (back : σ) (raw : Nat → Region) (session : List Typed)
    (short : ∀ typed ∈ session, typed.line.length < maxLine) (links : SessionLinks banner back raw session) :
    Guarded (fun r => ∃ nodes, ShellOk raw r.2 nodes ∧ CleanFiles nodes) (shellRun banner back raw session) := by
  apply shellRun_guarded banner back raw (fun t => ∃ nodes, ShellOk raw t nodes ∧ CleanFiles nodes)
  · intro fs mounted
    have clean := CleanFiles.cons (fun _ none_ => absurd none_ List.not_mem_nil) (fsEmpty (kheapInit back) raw) 2
    exact ⟨_, shellStart_ok banner mounted, clean⟩
  · rintro t typed ⟨_, ok, clean⟩ fits linked
    exact ok.step_clean clean banner typed fits linked
  · exact short
  · exact links

end Sessions

def prompt (t : Shell σ) : List UInt8 := t.cwdPath ++ ascii "$ "

/-- The words `parse_args` has slots for behind `write` and the file, joined by single spaces. -/
def keptText (ws : List (List UInt8)) : List UInt8 := [space].intercalate (ws.take 14)

/-- `write f w1 ... wn` and `cat f` typed one after the other, where `f` is a regular file. -/
structure WriteThenCat (t : Shell σ) (write cat : Typed) (f : List UInt8) (ws : List (List UInt8))
    (ino size : Nat) : Prop where
  plain : 0 ∉ write.line ∧ 0 ∉ cat.line
  short : write.line.length < maxLine
  writes : words space write.line = ascii "write" :: f :: ws
  some_ : ws ≠ []
  shows : words space cat.line = [ascii "cat", f]
  resolved : resolvePath t f = .ok ino
  file : fsStat t.fs ino true true = .ok (0, some size, some 1)
  links : LineLinks t write

section Commands

variable {raw : Nat → Region} {t : Shell σ} {nodes : List Node} {ino : Nat} {n : Node} {f : List UInt8}

theorem file_valid (ok : ShellOk raw t nodes) (found : findNode nodes ino = some n) : ino ≠ invalidIno := by
  obtain ⟨member, number⟩ := findNode_some found
  have numbered := ok.mounted.ok.shape.numbered n member
  rw [number] at numbered
  simp only [invalidIno]
  omega

theorem cmdCat_contents (ok : ShellOk raw t nodes) (found : findNode nodes ino = some n)
    (file : n.inode.inodeType = 1) (plain : 0 ∉ n.contents) (resolved : resolvePath t f = .ok ino)
    (rest : List (List UInt8)) : cmdCat t (f :: rest) = .ok (t.puts (n.contents ++ newline)) := by
  have small := file_size_small ok.mounted.ok ino n found file
  have length := contents_length n
  have fuel : walkFuel = 65537 := by decide
  have all := catChunks_reads t ino plain (fun offset => fsRead_contents ok.mounted.ok found file offset)
    walkFuel 0 (Nat.zero_le _) (by omega) []
  rw [cmdCat, resolved, ok_bind, if_neg (file_valid ok found)]
  simpa [Shell.puts] using all

theorem WriteThenCat.slots {write cat : Typed} {ws : List (List UInt8)} {size : Nat}
    (typed : WriteThenCat t write cat f ws ino size) :
    lineArgs write.line = .ok (ascii "write" :: f :: ws.take 14) ∧ 0 ∉ f ∧ (∀ w ∈ ws.take 14, 0 ∉ w) ∧
      0 + (joinArgs (ws.take 14)).length < 2 ^ 64 := by
  have cut : lineArgs write.line = .ok (ascii "write" :: f :: ws.take 14) := by
    rw [lineArgs_words _ typed.plain.1, typed.writes]
    rfl
  obtain ⟨args, parsed, few, texts⟩ := lineArgs_ok write.line
  obtain rfl : args = ascii "write" :: f :: ws.take 14 := Except.ok.inj (parsed.symm.trans cut)
  have words : ∀ w ∈ ws.take 14, 0 ∉ w ∧ w.length ≤ write.line.length + 1 := fun w inside =>
    texts w (List.mem_cons_of_mem _ (List.mem_cons_of_mem _ inside))
  refine ⟨cut, (texts f (by simp)).1, fun w inside => (words w inside).1, ?_⟩
  have long := joinArgs_length maxLine (ws.take 14) fun w inside => (words w inside).2.trans typed.short
  simp only [List.length_cons, maxArgs, maxLine] at few long
  omega

theorem WriteThenCat.held (ok : ShellOk raw t nodes) {write cat : Typed} {ws : List (List UInt8)} {size : Nat}
    (typed : WriteThenCat t write cat f ws ino size) :
    ∃ n, findNode nodes ino = some n ∧ n.inode.inodeType = 1 ∧ n.contents.length = size := by
  have stated := typed.file
  rw [fsStat_spec ok.mounted.ok.shape] at stated
  cases found : findNode nodes ino with
  | none => simp [found] at stated
  | some n =>
      simp only [found, if_true, Except.ok.injEq, Prod.mk.injEq, Option.some.injEq, true_and] at stated
      exact ⟨n, rfl, stated.2, (contents_length n).trans stated.1⟩

theorem resolvePath_written {t' : Shell σ} {n' : Node} (ok : ShellOk raw t nodes)
    (ok' : ShellOk raw t' (replaceNode nodes ino n')) (path : t'.cwdPath = t.cwdPath)
    (found : findNode nodes ino = some n) (file : n.inode.inodeType = 1) (number : n'.inode.ino = ino)
    (type : n'.inode.inodeType = n.inode.inodeType) (plain : 0 ∉ f) : resolvePath t' f = resolvePath t f := by
  have full : fullPath t' f = fullPath t f := by rw [fullPath, fullPath, path]
  rw [resolvePath_ok ok' f plain, resolvePath_ok ok f plain, full, lookupResult, lookupResult,
    dirsOf_written found file number type]

variable [Backing σ]

/-- `write` puts its text in front of what the file held, and prints nothing. -/
theorem cmdWrite_front (ok : ShellOk raw t nodes) (found : findNode nodes ino = some n)
    (file : n.inode.inodeType = 1) (resolved : resolvePath t f = .ok ino) {ws : List (List UInt8)}
    (some_ : ws ≠ []) (small : 0 + (joinArgs ws).length < 2 ^ 64)
    (links : NullLinks t.fs (.write ino 0 (joinArgs ws).length (some (joinArgs ws ++ [0])))) :
    Guarded (fun t' => t'.out = t.out ∧ t'.cwdPath = t.cwdPath ∧ ∃ n',
        ShellOk raw t' (replaceNode nodes ino n') ∧ n'.inode.ino = ino ∧
        n'.inode.inodeType = n.inode.inodeType ∧
        n'.contents = joinArgs ws ++ n.contents.drop (joinArgs ws).length)
      (cmdWrite t (f :: ws)) := by
  obtain ⟨word, rest, rfl⟩ := List.exists_cons_of_ne_nil some_
  obtain ⟨member, number⟩ := findNode_some found
  have notDir : n.inode.inodeType ≠ 2 := by rw [file]; decide
  rw [cmdWrite, resolved, ok_bind, if_neg (file_valid ok found)]
  apply (fsWrite_effect ok.mounted.ok (Or.inl small) (by simp) links).bind
  rintro ⟨value, fs⟩ ⟨nodes', effect, kept⟩
  have ok' := ok.effect fs _ _ effect kept fun k site => by contradiction
  cases effect with
  | wrapped _ _ _ _ _ _ _ _ wraps => exact absurd small (Nat.not_lt.mpr wraps)
  | written _ _ len src m n' known file' room _ wrote =>
      obtain rfl : n = m := Option.some.inj (found.symm.trans known)
      rw [List.take_left] at wrote
      have contents := wrote_front (ok.mounted.ok.tree.bytes n member notDir) wrote
      have served : ¬ Int.ofNat (joinArgs (word :: rest)).length < 0 := Int.not_lt.mpr (Int.natCast_nonneg _)
      dsimp only
      rw [if_neg served]
      exact .ok _ ⟨rfl, rfl, n', ok', wrote.inode.1.trans number, wrote.inode.2.1, contents⟩
  | notWritten _ _ _ _ refused =>
      rcases refused with none_ | other
      · exact absurd none_ (Option.some_ne_none _)
      · exact absurd file (other n found)

theorem runCommand_write (banner : List UInt8) (uptime : Nat) (args : List (List UInt8)) :
    runCommand banner t uptime (ascii "write") args = cmdWrite t args := rfl

theorem runCommand_cat (banner : List UInt8) (uptime : Nat) (args : List (List UInt8)) :
    runCommand banner t uptime (ascii "cat") args = cmdCat t args := rfl

/-- A line runs the command of its first word on the next 15. -/
theorem shellStep_words (banner : List UInt8) {typed : Typed} (plain : 0 ∉ typed.line) {verb : List UInt8}
    {rest : List (List UInt8)} (parts : words space typed.line = verb :: rest) :
    shellStep banner t typed =
      (runCommand banner (t.puts (prompt t)) typed.uptime verb (rest.take 15) >>= fun t' => pure ((), t')) := by
  have some_ : typed.line.length ≠ 0 := by
    intro empty
    rw [List.length_eq_zero_iff.mp empty, words_nil] at parts
    contradiction
  rw [shellStep, if_neg some_, lineArgs_words _ plain, parts, ok_bind]
  rfl

/-- What the two lines send: behind the text, what the file held behind that length. -/
theorem WriteThenCat.sends (ok : ShellOk raw t nodes) (clean : CleanFiles nodes) {write cat : Typed}
    {ws : List (List UInt8)} {size : Nat} (typed : WriteThenCat t write cat f ws ino size) (banner : List UInt8) :
    ∃ n, findNode nodes ino = some n ∧ n.contents.length = size ∧
      Guarded (fun r => r.2.out = t.out ++ prompt t ++ prompt t ++
          (keptText ws ++ n.contents.drop (keptText ws).length ++ newline))
        (Replay.attempt (shellStep banner) t [write, cat]) := by
  obtain ⟨cut, plainF, plainWs, small⟩ := typed.slots
  obtain ⟨n, found, file, length⟩ := typed.held ok
  refine ⟨n, found, length, ?_⟩
  have ok0 := ok.prints (onlyPrints_puts t (prompt t))
  have kept : ws.take 14 ≠ [] := by simpa using typed.some_
  have link : NullLinks t.fs (.write ino 0 (joinArgs (ws.take 14)).length (some (joinArgs (ws.take 14) ++ [0]))) := by
    apply typed.links _ _ _ cut
    obtain ⟨word, rest, split⟩ := List.exists_cons_of_ne_nil kept
    rw [split, show appendingCall t (ascii "write") (f :: word :: rest) = writeCall t (f :: word :: rest) from rfl,
      writeCall, typed.resolved]
    exact if_neg (file_valid ok found)
  have wrote := cmdWrite_front ok0 found file typed.resolved kept small link
  have slots : (f :: ws).take 15 = f :: ws.take 14 := rfl
  -- the first line writes and prints its prompt only
  rw [Replay.attempt, shellStep_words banner typed.plain.1 typed.writes, runCommand_write, slots, bind_assoc]
  apply wrote.bind
  rintro t1 ⟨out, path, n', ok1, number, type, contents⟩
  have same : prompt t1 = prompt t := congrArg (· ++ ascii "$ ") path
  have ok2 := ok1.prints (onlyPrints_puts t1 (prompt t1))
  have found' : findNode (replaceNode nodes ino n') ino = some n' := by
    rw [findNode_replace nodes ino n' number, if_pos rfl, found]
    rfl
  have clean' : 0 ∉ n'.contents := by
    obtain ⟨member, _⟩ := findNode_some found
    rw [contents]
    exact front_plain (joinArgs_plain _ plainWs) (clean n member (by rw [file]; decide)) _
  have resolved : resolvePath (t1.puts (prompt t1)) f = .ok ino := by
    rw [resolvePath_written ok ok2 path found file number type plainF, typed.resolved]
  -- the second finds the same inode, with the new bytes in it
  have shown := cmdCat_contents ok2 found' (type.trans file) clean' resolved []
  rw [pure_ok, ok_bind, Replay.attempt, shellStep_words banner typed.plain.2 typed.shows, runCommand_cat,
    show [f].take 15 = [f] from rfl, shown]
  apply Guarded.ok
  simp only [Shell.puts]
  rw [out, same, contents, joinArgs_eq, keptText, Shell.puts]

end Commands

/-- After every session that appends blocks with null links, and unless the heap runs
out: `cat` sends the kept words of the `write` in front of it first, a line break last,
and nothing else where the file held no more bytes. -/
theorem written_text_shown [Backing σ] (banner : List UInt8) (back : σ) (raw : Nat → Region)
    (session : List Typed) (short : ∀ typed ∈ session, typed.line.length < maxLine)
    (links : SessionLinks banner back raw session) :
    Guarded (fun r => ∀ write cat f ws ino size, WriteThenCat r.2 write cat f ws ino size →
        Guarded (fun r' => ∃ rest : List UInt8, (size ≤ (keptText ws).length → rest = []) ∧
            r'.2.out = r.2.out ++ prompt r.2 ++ prompt r.2 ++ (keptText ws ++ rest ++ newline))
          (Replay.attempt (shellStep banner) r.2 [write, cat]))
      (shellRun banner back raw session) := by
  apply (shellRun_clean banner back raw session short links).mono
  rintro ⟨_, t⟩ ⟨nodes, ok, clean⟩ write cat f ws ino size typed
  obtain ⟨n, _, length, sends⟩ := typed.sends ok clean banner
  apply sends.mono
  intro r' sent
  refine ⟨n.contents.drop (keptText ws).length, fun fits => ?_, sent⟩
  exact List.drop_eq_nil_of_le (by omega)

/-- The name `f`, typed in zero-filled memory behind a session that made inode 2. -/
theorem zero_takes_write (session : List Typed) (fits : ∀ typed ∈ session, typed.line.length < maxLine) (size : Nat)
    (seen : (shellRun [] Endless.mk (fun _ _ => 0) session >>= fun r => resolvePath r.2 (ascii "f") >>= fun ino =>
      fsStat r.2.fs 2 true true >>= fun stat => .ok (ino, stat)) = .ok (2, 0, some size, some 1))
    (write : Typed) (ws : List (List UInt8)) (plain : 0 ∉ write.line) (short : write.line.length < maxLine)
    (writes : words space write.line = ascii "write" :: ascii "f" :: ws) (some_ : ws ≠ []) :
    ∃ r, shellRun [] Endless.mk (fun _ _ => 0) session = .ok r ∧
      WriteThenCat r.2 write ⟨ascii "cat f", 2⟩ (ascii "f") ws 2 size := by
  obtain ⟨r, ran, ino, resolved, stat, stated, same⟩ := by
    simpa only [bind_ok_iff] using seen
  obtain ⟨rfl, rfl⟩ := Prod.mk.inj (Except.ok.inj same)
  obtain ⟨nodes, ok⟩ := (shellRun_ok [] Endless.mk (fun _ _ => 0) session fits
    (sessionLinks_zero [] Endless.mk _ (fun _ _ => rfl) session fits)).of_eq ran
  refine ⟨r, ran, ⟨plain, by decide⟩, short, writes, some_, by decide +kernel, resolved, stated, ?_⟩
  intro _ _ call _ _
  exact nullLinks_null r.2.fs (by rw [ok.mounted.ok.shape.memory]; exact zero_null fun _ _ => rfl) call

def touchSession : List Typed := [⟨ascii "touch f", 0⟩]

def greeting : Typed := ⟨ascii "write f  hi   there ", 1⟩

theorem written_text_shown_greeting : ∃ r r', shellRun [] Endless.mk (fun _ _ => 0) touchSession = .ok r ∧
    Replay.attempt (shellStep []) r.2 [greeting, ⟨ascii "cat f", 2⟩] = .ok r' ∧
    ∃ rest : List UInt8, (0 ≤ (keptText [ascii "hi", ascii "there"]).length → rest = []) ∧
      r'.2.out = r.2.out ++ prompt r.2 ++ prompt r.2 ++ (keptText [ascii "hi", ascii "there"] ++ rest ++ newline) := by
  have fits : ∀ typed ∈ touchSession, typed.line.length < maxLine := by decide +kernel
  have guarded := written_text_shown [] Endless.mk (fun _ _ => 0) touchSession fits
    (sessionLinks_zero [] Endless.mk _ (fun _ _ => rfl) touchSession fits)
  obtain ⟨r, ran, typed⟩ := zero_takes_write touchSession fits 0 (by decide +kernel) greeting
    [ascii "hi", ascii "there"] (by decide) (by decide) (by decide +kernel) (by decide)
  have returns : (shellRun [] Endless.mk (fun _ _ => 0) touchSession >>= fun r =>
      Replay.attempt (shellStep []) r.2 [greeting, ⟨ascii "cat f", 2⟩]).toBool = true := by decide +kernel
  rw [ran, ok_bind] at returns
  obtain ⟨r', result, shown⟩ := (guarded.of_eq ran _ _ _ _ _ _ typed).returned returns
  exact ⟨r, r', ran, result, shown⟩

/-- `cat` sends the words of the `write` in front of it and a line break and nothing
else, at every prompt where `Where` holds of the words and the size of the file. -/
def ShowsWritten (Where : List (List UInt8) → Nat → Prop) : Prop :=
  ∀ (σ : Type) (_ : Backing σ) (banner : List UInt8) (back : σ) (raw : Nat → Region) (session : List Typed),
    (∀ typed ∈ session, typed.line.length < maxLine) → SessionLinks banner back raw session →
    Guarded (fun r => ∀ write cat f ws ino size, WriteThenCat r.2 write cat f ws ino size → Where ws size →
        Guarded (fun r' => r'.2.out = r.2.out ++ prompt r.2 ++ prompt r.2 ++ ([space].intercalate ws ++ newline))
          (Replay.attempt (shellStep banner) r.2 [write, cat]))
      (shellRun banner back raw session)

/-- One run that sends something else refutes it. -/
theorem not_showsWritten {Where : List (List UInt8) → Nat → Prop} (session : List Typed)
    (fits : ∀ typed ∈ session, typed.line.length < maxLine) (size : Nat)
    (seen : (shellRun [] Endless.mk (fun _ _ => 0) session >>= fun r => resolvePath r.2 (ascii "f") >>= fun ino =>
      fsStat r.2.fs 2 true true >>= fun stat => .ok (ino, stat)) = .ok (2, 0, some size, some 1))
    (write : Typed) (ws : List (List UInt8)) (plain : 0 ∉ write.line) (short : write.line.length < maxLine)
    (writes : words space write.line = ascii "write" :: ascii "f" :: ws) (some_ : ws ≠ []) (here : Where ws size)
    (differs : (shellRun [] Endless.mk (fun _ _ => 0) session >>= fun r =>
      Replay.attempt (shellStep []) r.2 [write, ⟨ascii "cat f", 2⟩] >>= fun r' =>
      .ok (decide (r'.2.out = r.2.out ++ prompt r.2 ++ prompt r.2 ++ ([space].intercalate ws ++ newline)))) =
      .ok false) : ¬ ShowsWritten Where := by
  intro claimed
  have guarded := claimed Endless inferInstance [] Endless.mk (fun _ _ => 0) session fits
    (sessionLinks_zero [] Endless.mk _ (fun _ _ => rfl) session fits)
  obtain ⟨r, ran, typed⟩ := zero_takes_write session fits size seen write ws plain short writes some_
  rw [ran, ok_bind, bind_ok_iff] at differs
  obtain ⟨r', result, differs⟩ := differs
  have shown := (guarded.of_eq ran _ _ _ _ _ _ typed here).of_eq result
  rw [decide_eq_true shown] at differs
  contradiction

/-- 15 words behind the file, one more than there are slots for. -/
def longGreeting : Typed := ⟨ascii "write f a b c d e f g h i j k l m n o", 1⟩

def helloSession : List Typed := [⟨ascii "touch f", 0⟩, ⟨ascii "write f hello", 1⟩]

/-- The 15th word is not written, and the tail of a longer file stays. -/
theorem write_drops_words_keeps_tails : ¬ ShowsWritten (fun _ _ => True) ∧
    ¬ ShowsWritten (fun _ size => size = 0) ∧ ¬ ShowsWritten (fun ws _ => ws.length ≤ 14) := by
  refine ⟨?_, ?_, ?_⟩
  · exact not_showsWritten touchSession (by decide +kernel) 0 (by decide +kernel) longGreeting
      ((words space longGreeting.line).drop 2) (by decide) (by decide) (by decide +kernel) (by decide +kernel) trivial
      (by decide +kernel)
  · exact not_showsWritten touchSession (by decide +kernel) 0 (by decide +kernel) longGreeting
      ((words space longGreeting.line).drop 2) (by decide) (by decide) (by decide +kernel) (by decide +kernel) rfl
      (by decide +kernel)
  · exact not_showsWritten helloSession (by decide +kernel) 5 (by decide +kernel) ⟨ascii "write f bye", 1⟩
      [ascii "bye"] (by decide) (by decide) (by decide +kernel) (by decide) (by decide) (by decide +kernel)

end KehindeKernel
