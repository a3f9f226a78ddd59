import KehindeKernel.Desk
import KehindeKernel.WriteShown

/-!
The shell is the desk. Over zero-filled memory and a store that does not run dry,
every session prints the bytes the desk prints and leaves the disk the desk leaves;
it ends at `shutdown`, where the desk has no memory left, or with a path that does
not fit its buffer, and nowhere else.
-/

namespace KehindeKernel

open Outcome Bytes Words

variable {σ : Type}

theorem seq_iff (a b : List UInt8) : seq a b = true ↔ a = b := by
  induction a generalizing b with
  | nil => cases b <;> simp [seq]
  | cons c rest ih =>
      cases b with
      | nil => simp [seq]
      | cons d tail => simp [seq, ih]

theorem cmdHelp_text (t : Shell σ) : cmdHelp t = t.puts Desk.helpText := by
  unfold cmdHelp
  exact congrArg t.puts (by decide +kernel)

theorem isDir_iff (nodes : List Node) (next ino : Nat) :
    (diskOf nodes next).IsDir ino ↔ ∃ n, findNode nodes ino = some n ∧ n.inode.inodeType = 2 := by
  constructor
  · intro isDir
    obtain ⟨l, listed⟩ := Option.isSome_iff_exists.mp isDir
    obtain ⟨n, found, dir, _⟩ := dirsOf_eq_some listed
    exact ⟨n, found, dir⟩
  · rintro ⟨n, found, dir⟩
    show (dirsOf nodes ino).isSome = true
    rw [dirsOf_dir found dir]
    rfl

/-- The type `fs_stat` stores tells a directory of the disk. -/
theorem stat_isDir {raw : Nat → Region} {s : Fs σ} {nodes : List Node}
    (ok : FsOk raw s nodes) (next ino : Nat) : ∃ value size type,
    fsStat s ino false true = .ok (value, size, type) ∧ (type = some 2 ↔ (diskOf nodes next).IsDir ino) := by
  rw [fsStat_spec ok.shape, isDir_iff]
  cases found : findNode nodes ino with
  | none => exact ⟨-1, none, none, rfl, by simp⟩
  | some n => exact ⟨0, none, some n.inode.inodeType, rfl, by simp⟩

/-- From entry `i` on `ls` prints what is left of the listing, or that there was nothing. -/
theorem lsEntries_dir {raw : Nat → Region} {t : Shell σ} {nodes : List Node}
    (ok : FsOk raw t.fs nodes) (next : Nat) {dirIno : Nat} {n : Node} (found : findNode nodes dirIno = some n)
    (dir : n.inode.inodeType = 2) (fuel i : Nat) (any : Bool)
    (sent : List UInt8) (within : i ≤ n.inode.inodeSize) (enough : n.inode.inodeSize < i + fuel) :
    lsEntries dirIno fuel i any (t.puts sent) =
      .ok (t.puts (sent ++ ((n.entries.drop i).flatMap (diskOf nodes next).entryLine ++
        if any = true ∨ i < n.inode.inodeSize then [] else ascii "(empty)\r\n"))) := by
  induction fuel generalizing i any sent with
  | zero => omega
  | succ fuel ih =>
      have read := fsReaddir_spec ok dirIno i true
      simp only [found, readdirResult, dir, ne_eq, not_true_eq_false, Bool.true_eq_false, or_self, if_false] at read
      rw [lsEntries]
      simp only [Shell.puts] at ih ⊢
      by_cases inside : i < n.inode.inodeSize
      · rw [if_pos inside] at read
        have slots := ok.tree.slots n (findNode_some found).1 dir
        obtain ⟨value, size, type, stated, isDir⟩ := stat_isDir ok next (slotOf n.chain i).inodeId
        have line : text (slotOf n.chain i).name ++ (if type = some 2 then ascii "/" else []) ++ newline =
            (diskOf nodes next).entryLine (entryOf (slotOf n.chain i)) := by
          simp only [Disk.entryLine, isDir]
          rfl
        have first : n.entries.drop i = entryOf (slotOf n.chain i) :: n.entries.drop (i + 1) :=
          (List.getElem?_eq_some_iff.mp (entries_get n i inside)).elim fun below here =>
            here ▸ List.drop_eq_getElem_cons below
        rw [read, ok_bind, if_pos rfl, fetch_some, ok_bind, cText_text _ (slots.named i inside).1, ok_bind,
          stated, ok_bind, List.append_assoc, line, ih (i + 1) true _ inside (by omega), first]
        simp [inside]
      · rw [if_neg inside] at read
        have none_ : n.entries.drop i = [] := by
          apply List.drop_eq_nil_of_le
          rw [entries_length]
          exact Nat.not_lt.mp inside
        rw [read, ok_bind, if_neg (by decide), none_]
        cases any <;> simp [inside]

variable [Backing σ]

/-- A relative argument that is resolved finds room behind the working directory's path. -/
def Joins (t : Shell σ) (verb : List UInt8) (args : List (List UInt8)) : Prop :=
  ∀ arg ∈ resolvedArg verb args, arg.head? ≠ some slash → joinLength t arg < maxPath

instance (t : Shell σ) (verb : List UInt8) (args : List (List UInt8)) : Decidable (Joins t verb args) :=
  inferInstanceAs (Decidable (∀ arg ∈ resolvedArg verb args, arg.head? ≠ some slash → joinLength t arg < maxPath))

/-- The loop body of `shell_run` behind `read_line`. A path that does not fit its
buffer is a store behind the buffer. -/
def shellDispatch (banner : List UInt8) (t : Shell σ) (typed : Typed) : Run (Shell σ) :=
  if typed.line.length = 0 then pure t
  else do
    let args ← lineArgs typed.line
    match args with
    | [] => pure t
    | verb :: args => if Joins t verb args then runCommand banner t typed.uptime verb args else throw .fault

/-- One trip of the loop of `shell_run` with the path buffers it has. -/
def shellTrip (banner : List UInt8) (t : Shell σ) (typed : Typed) : Run (Unit × Shell σ) := do
  let t ← shellDispatch banner (t.puts (t.cwdPath ++ ascii "$ ")) typed
  pure ((), t)

theorem shellTrip_step (banner : List UInt8) {t : Shell σ} {typed : Typed} (room : JoinRoom t typed) :
    shellTrip banner t typed = shellStep banner t typed := by
  rw [shellTrip, shellStep, shellDispatch]
  split
  · rfl
  · cases parsed : lineArgs typed.line with
    | error stop => rfl
    | ok args =>
        cases args with
        | nil => rfl
        | cons verb args =>
            have joins : Joins (t.puts (t.cwdPath ++ ascii "$ ")) verb args :=
              fun arg resolved relative => room verb args arg parsed resolved relative
            simp only [ok_bind, if_pos joins]

theorem shellTrip_fault (banner : List UInt8) {t : Shell σ} {typed : Typed} (short : ¬ JoinRoom t typed) :
    shellTrip banner t typed = .error .fault := by
  simp only [JoinRoom, not_forall] at short
  obtain ⟨verb, args, arg, parsed, resolved, relative, long⟩ := short
  have some_ : ¬ typed.line.length = 0 := by
    intro empty
    rw [List.length_eq_zero_iff.mp empty] at parsed
    exact absurd parsed (by rw [show lineArgs [] = .ok [] by decide]; exact fun same => nomatch same)
  have outside : ¬ Joins (t.puts (t.cwdPath ++ ascii "$ ")) verb args :=
    fun joins => long (joins arg resolved relative)
  rw [shellTrip, shellDispatch, if_neg some_, parsed, ok_bind]
  simp only [if_neg outside, throw_error, error_bind]

/-- A shell and the desk it is. -/
structure Serving (raw : Nat → Region) (t : Shell σ) (k : Desk) (nodes : List Node) : Prop where
  ok : ShellOk raw t nodes
  held : HoldsVolume raw t.fs k.volume nodes
  clean : CleanFiles nodes
  cwd : t.cwdPath = k.cwd
  out : t.out = k.out

/-- What every line leaves behind. -/
def Kept (raw : Nat → Region) (k : Desk) (t : Shell σ) : Prop := ∃ nodes, Serving raw t k nodes

section Looking

variable {raw : Nat → Region} {t : Shell σ} {k : Desk} {nodes : List Node}

theorem Serving.puts (serving : Serving raw t k nodes) (bytes : List UInt8) :
    Serving raw (t.puts bytes) (k.puts bytes) nodes :=
  ⟨serving.ok.prints (onlyPrints_puts t bytes), serving.held, serving.clean, serving.cwd,
    congrArg (· ++ bytes) serving.out⟩

theorem Serving.disk (serving : Serving raw t k nodes) : k.disk = diskOf nodes t.fs.nextIno :=
  serving.held.disk

theorem Serving.here (serving : Serving raw t k nodes) : k.here = t.cwdIno := by
  rw [Desk.here, serving.disk, ← serving.cwd]
  exact serving.ok.here

theorem Serving.find (serving : Serving raw t k nodes) (arg : List UInt8) (plain : 0 ∉ arg) :
    resolvePath t arg = .ok (k.find arg) := by
  rw [resolvePath_ok serving.ok arg plain, Desk.find, serving.disk, ← serving.cwd]
  rfl

theorem lsEntries_listing (serving : Serving raw t k nodes) (ino : Nat) :
    lsEntries ino walkFuel 0 false t = .ok (t.puts (k.disk.listing ino)) := by
  have ok := serving.ok.mounted.ok
  rw [serving.disk]
  by_cases isDir : ∃ n, findNode nodes ino = some n ∧ n.inode.inodeType = 2
  · obtain ⟨n, found, dir⟩ := isDir
    have small := dir_size_small ok ino n found dir
    have all := lsEntries_dir ok t.fs.nextIno found dir walkFuel 0 false [] (Nat.zero_le _) (by omega)
    have listed : (diskOf nodes t.fs.nextIno).catalog.dirs ino = some n.entries := dirsOf_dir found dir
    rw [Disk.listing, listed, Option.getD_some]
    simp only [Shell.puts, List.append_nil, List.nil_append, List.drop_zero] at all ⊢
    rw [all]
    have length := entries_length n
    cases shape : n.entries with
    | nil =>
        rw [shape] at length
        simp [← length]
    | cons e rest =>
        rw [shape, List.length_cons] at length
        have some_ : 0 < n.inode.inodeSize := by omega
        simp [some_]
  · have unlisted : (diskOf nodes t.fs.nextIno).catalog.dirs ino = none := by
      have not := (not_congr (isDir_iff nodes t.fs.nextIno ino)).mpr isDir
      simpa [Disk.IsDir] using not
    have read := fsReaddir_spec ok ino 0 true
    have nothing : readdirResult (findNode nodes ino) 0 true = (-1, none) := by
      cases found : findNode nodes ino with
      | none => rfl
      | some n => exact if_pos (Or.inl fun dir => isDir ⟨n, found, dir⟩)
    rw [nothing] at read
    rw [Disk.listing, unlisted]
    have fuel : walkFuel = 65536 + 1 := by decide
    rw [fuel, lsEntries, read]
    rfl

theorem cmdLs_desk (serving : Serving raw t k nodes) (args : List (List UInt8)) (plain : ∀ arg ∈ args, 0 ∉ arg) :
    Follows (Kept raw) (pure (k.ls args)) (cmdLs t args) := by
  cases args with
  | nil =>
      rw [cmdLs, Desk.ls, serving.here, lsEntries_listing serving]
      exact .ok _ _ ⟨nodes, serving.puts _⟩
  | cons path rest =>
      rw [cmdLs, serving.find path (plain path List.mem_cons_self), ok_bind, Desk.ls]
      by_cases lost : k.find path = invalidIno
      · rw [if_pos lost, if_pos lost]
        exact .ok _ _ ⟨nodes, serving.puts _⟩
      · rw [if_neg lost, if_neg lost, lsEntries_listing serving]
        exact .ok _ _ ⟨nodes, serving.puts _⟩

/-- On an object that is no file the first read ends the loop. -/
theorem cmdCat_other (serving : Serving raw t k nodes) (file : List UInt8) (rest : List (List UInt8))
    (ino : Nat) (resolved : resolvePath t file = .ok ino) (valid : ino ≠ invalidIno)
    (other : filesOf nodes ino = none) :
    cmdCat t (file :: rest) = .ok (t.puts (ascii "cat: read error\r\n")) := by
  have ok := serving.ok.mounted.ok
  have nothing : readResult (findNode nodes ino) 0 127 = (-1, []) := by
    cases found : findNode nodes ino with
    | none => rfl
    | some n =>
        have notFile : n.inode.inodeType ≠ 1 := fun isFile =>
          Option.some_ne_none _ ((filesOf_file found isFile).symm.trans other)
        simp [readResult, notFile]
  have read := fsRead_spec ok.shape ok.tree ino 0 127 128 (Or.inl (by decide)) (by decide)
  have fuel : walkFuel = 65536 + 1 := by decide
  rw [nothing] at read
  rw [cmdCat, resolved, ok_bind, if_neg valid, fuel, catChunks, read]
  rfl

/-- `cat` sends what the disk shows of the object. -/
theorem cmdCat_desk (serving : Serving raw t k nodes) (args : List (List UInt8))
    (plain : ∀ arg ∈ args, 0 ∉ arg) : Follows (Kept raw) (pure (k.cat args)) (cmdCat t args) := by
  cases args with
  | nil => exact .ok _ _ ⟨nodes, serving.puts _⟩
  | cons file rest =>
      have resolved := serving.find file (plain file List.mem_cons_self)
      rw [Desk.cat]
      by_cases lost : k.find file = invalidIno
      · rw [cmdCat, resolved, ok_bind, if_pos lost, if_pos lost]
        exact .ok _ _ ⟨nodes, serving.puts _⟩
      · have sent : cmdCat t (file :: rest) = .ok (t.puts (k.disk.shown (k.find file))) := by
          rw [serving.disk, Disk.shown]
          cases held : (diskOf nodes t.fs.nextIno).files (k.find file) with
          | none => exact cmdCat_other serving file rest _ resolved lost held
          | some c =>
              obtain ⟨n, found, isFile, rfl⟩ := filesOf_eq_some held
              have notDir : n.inode.inodeType ≠ 2 := by rw [isFile]; decide
              have clean := serving.clean n (findNode_some found).1 notDir
              exact cmdCat_contents serving.ok found isFile clean resolved rest
        rw [if_neg lost, sent]
        exact .ok _ _ ⟨nodes, serving.puts _⟩

theorem cmdCd_desk (serving : Serving raw t k nodes) (args : List (List UInt8))
    (plain : ∀ arg ∈ args, 0 ∉ arg) : Follows (Kept raw) (pure (k.cd args)) (cmdCd t args) := by
  cases args with
  | nil => exact .ok _ _ ⟨nodes, serving.puts _⟩
  | cons target rest =>
      have clean := plain target List.mem_cons_self
      rw [cmdCd, serving.find target clean, ok_bind, Desk.cd]
      by_cases lost : k.find target = invalidIno
      · rw [if_pos lost, if_pos lost]
        exact .ok _ _ ⟨nodes, serving.puts _⟩
      · rw [if_neg lost, if_neg lost]
        obtain ⟨value, size, type, stated, isDir⟩ :=
          stat_isDir serving.ok.mounted.ok t.fs.nextIno (k.find target)
        rw [← serving.disk] at isDir
        rw [stated, ok_bind]
        dsimp only
        by_cases dir : k.disk.IsDir (k.find target)
        · have path : fullPath t target = absolutePath k.cwd target := by
            rw [fullPath, absolutePath, serving.cwd]
          have reached : lookupResult nodes (fullPath t target) = k.find target := by
            rw [path, Desk.find, serving.disk]
            rfl
          have listed : (dirsOf nodes (k.find target)).isSome := by
            rw [serving.disk] at dir
            exact dir
          have moved : Kept raw { k with cwd := absolutePath k.cwd target }
              { t with cwdIno := k.find target, cwdPath := fullPath t target } :=
            ⟨nodes, ⟨serving.ok.mounted, fullPath_absolute serving.ok target,
              fullPath_plain serving.ok target clean, reached, listed⟩, serving.held, serving.clean, path,
              serving.out⟩
          rw [if_pos dir, if_neg (not_not.mpr (isDir.mpr dir))]
          by_cases absolute : target.head? = some slash
          · rw [fullPath, if_pos absolute] at moved
            rw [if_pos absolute]
            exact .ok _ _ moved
          · rw [if_neg absolute, joinCwd_ok serving.ok target absolute]
            exact .ok _ _ moved
        · have other : type ≠ some 2 := fun same => dir (isDir.mp same)
          rw [if_neg dir, if_pos other]
          exact .ok _ _ ⟨nodes, serving.puts _⟩

end Looking

section Calling

variable {raw : Nat → Region} {t : Shell σ} {k : Desk} {nodes : List Node}

/-- The desk after a call of the shell on its working directory, or on none. -/
theorem Serving.call (serving : Serving raw t k nodes) {call : FsCall} {out : FsResult} {fs : Fs σ}
    {volume : Volume} {args : List (List UInt8)} (issued : Issues t args call)
    (plain : ∀ arg ∈ args, 0 ∉ arg)
    (done : ∃ nodes', Effect raw t.fs nodes call out nodes' ∧ HoldsVolume raw fs volume nodes') :
    Kept raw { k with volume := volume } { t with fs := fs } := by
  obtain ⟨nodes', effect, held⟩ := done
  have site : ∀ d, call.site = some d → d = t.cwdIno := by
    intro d same
    cases issued with
    | create => exact (Option.some.inj same).symm
    | unlink => exact (Option.some.inj same).symm
    | write => contradiction
  exact ⟨nodes', serving.ok.effect fs call out effect held.ok site, held,
    effect_clean serving.ok.mounted.ok.tree serving.clean plain issued effect, serving.cwd, serving.out⟩

theorem Kept.after {k : Desk} {t : Shell σ} (kept : Kept raw k t) (failed : Prop) [Decidable failed]
    (message : List UInt8) :
    Kept raw (if failed then k.puts message else k) (if failed then t.puts message else t) := by
  obtain ⟨nodes, serving⟩ := kept
  split
  · exact ⟨nodes, serving.puts message⟩
  · exact ⟨nodes, serving⟩

theorem text_cstring (name : List UInt8) (plain : 0 ∉ name) : text (name ++ [0]) = name :=
  (terminated_cstring name plain).text_eq

theorem cmdMake_desk (zeros : ∀ a i, raw a i = 0) (serving : Serving raw t k nodes) (verb : String)
    (inodeType : UInt8) (args : List (List UInt8)) (plain : ∀ arg ∈ args, 0 ∉ arg) :
    Follows (Kept raw) (k.make verb inodeType args) (cmdMake verb inodeType t args) := by
  cases args with
  | nil => exact .ok _ _ ⟨nodes, serving.puts _⟩
  | cons name rest =>
      rw [cmdMake, Desk.make]
      by_cases absolute : name.head? = some slash
      · rw [if_pos absolute, if_pos absolute]
        exact .ok _ _ ⟨nodes, serving.puts _⟩
      · rw [if_neg absolute, if_neg absolute, serving.here]
        have clean := plain name List.mem_cons_self
        have issued : Issues t (name :: rest) (.create t.cwdIno (name ++ [0]) inodeType) :=
          .create name inodeType List.mem_cons_self
        have stepped := fsStep_volume zeros serving.held (.create t.cwdIno (name ++ [0]) inodeType)
          ⟨⟨name, terminated_cstring name clean⟩, trivial⟩ FsCall.noConfusion
        have planned : k.volume.step (.create t.cwdIno (name ++ [0]) inodeType) =
            k.volume.create t.cwdIno name inodeType >>= fun r => pure (.catalog (.ino r.1), r.2) := by
          simp only [Volume.step, Volume.create, Disk.cost, Disk.step, text_cstring name clean, bind_assoc,
            pure_bind]
        rw [planned, fsStep] at stepped
        apply stepped.strip.bind
        rintro ⟨number, volume⟩ ⟨made, fs⟩ ⟨agrees, done⟩
        obtain rfl : made = number := agrees
        exact .ok _ _ ((serving.call issued plain done).after (made = invalidIno) _)

theorem cmdRm_desk (zeros : ∀ a i, raw a i = 0) (serving : Serving raw t k nodes)
    (args : List (List UInt8)) (plain : ∀ arg ∈ args, 0 ∉ arg) :
    Follows (Kept raw) (pure (k.rm args)) (cmdRm t args) := by
  cases args with
  | nil => exact .ok _ _ ⟨nodes, serving.puts _⟩
  | cons name rest =>
      rw [cmdRm, Desk.rm]
      by_cases absolute : name.head? = some slash
      · rw [if_pos absolute, if_pos absolute]
        exact .ok _ _ ⟨nodes, serving.puts _⟩
      · rw [if_neg absolute, if_neg absolute, serving.here]
        have clean := plain name List.mem_cons_self
        have issued : Issues t (name :: rest) (.unlink t.cwdIno (name ++ [0])) :=
          .unlink name List.mem_cons_self
        have stepped := fsStep_volume zeros serving.held (.unlink t.cwdIno (name ++ [0]))
          ⟨⟨name, terminated_cstring name clean⟩, trivial⟩ FsCall.noConfusion
        have planned : k.volume.step (.unlink t.cwdIno (name ++ [0])) =
            (pure (k.volume.unlink t.cwdIno name) >>= fun r => pure (.catalog (.code r.1), r.2)) := by
          simp only [Volume.step, Volume.unlink, Disk.cost, Disk.step, Catalog.step, text_cstring name clean,
            spend, Nat.zero_le, if_true, pure_bind, Nat.sub_zero]
        rw [planned, fsStep] at stepped
        show Follows (Kept raw) (pure (k.volume.unlink t.cwdIno name) >>= fun r =>
          pure (k.after r.2 (r.1 < 0) _)) _
        apply stepped.strip.bind
        rintro ⟨value, volume⟩ ⟨answer, fs⟩ ⟨agrees, done⟩
        obtain rfl : answer = value := agrees
        exact .ok _ _ ((serving.call issued plain done).after (answer < 0) _)

theorem cmdWrite_desk (zeros : ∀ a i, raw a i = 0) (serving : Serving raw t k nodes)
    (args : List (List UInt8)) (plain : ∀ arg ∈ args, 0 ∉ arg)
    (valid : ∀ call, Issues t args call → call.Valid) :
    Follows (Kept raw) (k.write args) (cmdWrite t args) := by
  rcases args with _ | ⟨file, _ | ⟨word, rest⟩⟩
  · exact .ok _ _ ⟨nodes, serving.puts _⟩
  · exact .ok _ _ ⟨nodes, serving.puts _⟩
  · rw [cmdWrite, Desk.write, serving.find file (plain file List.mem_cons_self), ok_bind]
    by_cases lost : k.find file = invalidIno
    · rw [if_pos lost, if_pos lost]
      exact .ok _ _ ⟨nodes, serving.puts _⟩
    · rw [if_neg lost, if_neg lost, ← joinArgs_eq]
      have issued : Issues t (file :: word :: rest) (.write (k.find file) 0 (joinArgs (word :: rest)).length
          (some (joinArgs (word :: rest) ++ [0]))) :=
        .write _ (word :: rest) (List.subset_cons_self file _) (Nat.le_succ _)
      have stepped := fsStep_volume zeros serving.held _ (valid _ issued) FsCall.noConfusion
      have small : 0 + (joinArgs (word :: rest)).length < 2 ^ 64 := (valid _ issued).range
      have planned : k.volume.step (.write (k.find file) 0 (joinArgs (word :: rest)).length
            (some (joinArgs (word :: rest) ++ [0]))) =
          k.volume.write (k.find file) 0 (joinArgs (word :: rest)) >>= fun r =>
            pure (.catalog (.code r.1), r.2) := by
        simp only [Volume.step, Volume.write, Disk.cost, Disk.step, if_pos small, List.take_left, bind_assoc,
          pure_bind]
      rw [planned, fsStep] at stepped
      apply stepped.strip.bind
      rintro ⟨value, volume⟩ ⟨answer, fs⟩ ⟨agrees, done⟩
      obtain rfl : answer = value := agrees
      exact .ok _ _ ((serving.call issued plain done).after (answer < 0) _)

theorem runCommand_desk (zeros : ∀ a i, raw a i = 0) (serving : Serving raw t k nodes) (banner : List UInt8)
    (uptime : Nat) (verb : List UInt8) (args : List (List UInt8)) (plain : ∀ arg ∈ args, 0 ∉ arg)
    (valid : ∀ call, Issues t args call → call.Valid) :
    Follows (Kept raw) (k.run banner uptime verb args) (runCommand banner t uptime verb args) := by
  have prints : ∀ bytes, Follows (Kept raw) (pure (k.puts bytes)) (pure (t.puts bytes)) :=
    fun bytes => .ok _ _ ⟨nodes, serving.puts bytes⟩
  unfold runCommand Desk.run
  simp only [seq_iff]
  refine follows_ite (cmdHelp_text t ▸ prints _) ?_
  refine follows_ite (cmdLs_desk serving args plain) ?_
  refine follows_ite ?_ ?_
  · have path := prints (k.cwd ++ newline)
    simp only [Shell.puts, ← List.append_assoc, ← serving.cwd] at path ⊢
    exact path
  refine follows_ite (cmdCd_desk serving args plain) ?_
  refine follows_ite (cmdMake_desk zeros serving "mkdir" 2 args plain) ?_
  refine follows_ite (cmdMake_desk zeros serving "touch" 1 args plain) ?_
  refine follows_ite (cmdCat_desk serving args plain) ?_
  refine follows_ite (cmdWrite_desk zeros serving args plain valid) ?_
  refine follows_ite (cmdRm_desk zeros serving args plain) ?_
  refine follows_ite (prints _) ?_
  refine follows_ite (prints _) ?_
  refine follows_ite (.stop .panic) ?_
  exact follows_ite (prints _) (prints _)

theorem resolvedArg_mem {verb : List UInt8} {args : List (List UInt8)} {arg : List UInt8}
    (resolved : resolvedArg verb args = some arg) : arg ∈ args := by
  cases args with
  | nil => contradiction
  | cons path rest =>
      simp only [resolvedArg] at resolved
      split at resolved
      · exact Option.some.inj resolved ▸ List.mem_cons_self
      · split at resolved
        · exact Option.some.inj resolved ▸ List.mem_cons_self
        · contradiction

/-- A line that `read_line` can return: it fits its buffer and has no NUL. -/
def Typed.Readable (typed : Typed) : Prop := 0 ∉ typed.line ∧ typed.line.length < maxLine

/-- The path a relative argument makes is as long at the desk. -/
theorem Serving.joins (serving : Serving raw t k nodes) {verb : List UInt8} {args : List (List UInt8)}
    (short : ∀ arg ∈ args, arg.length ≤ maxLine) : Joins t verb args ↔ k.Fits verb args := by
  refine forall₂_congr fun arg resolved => ?_
  by_cases absolute : arg.head? = some slash
  · have bound := short arg (resolvedArg_mem resolved)
    have small : FitsPath arg := Nat.le_trans (Nat.succ_le_succ bound) (by decide)
    rw [absolutePath, if_pos absolute]
    exact iff_of_true (fun relative => absurd absolute relative) small
  · obtain ⟨path, made, length, _⟩ := joinCwd_length serving.ok.cwd_ne_nil arg
    obtain rfl : fullPath t arg = path := Except.ok.inj ((joinCwd_ok serving.ok arg absolute).symm.trans made)
    have same : fullPath t arg = absolutePath k.cwd arg := by
      rw [fullPath, absolutePath, serving.cwd]
    rw [FitsPath, ← same, length]
    exact ⟨fun room => room absolute, fun room _ => room⟩

theorem dispatch_desk (zeros : ∀ a i, raw a i = 0) (banner : List UInt8) (typed : Typed)
    (readable : typed.Readable) (kept : Kept raw k t) :
    Follows (Kept raw) (k.dispatch banner typed) (shellDispatch banner t typed) := by
  obtain ⟨nodes, serving⟩ := kept
  obtain ⟨plain, short⟩ := readable
  have parsed := lineArgs_words typed.line plain
  rw [shellDispatch, Desk.dispatch]
  by_cases empty : typed.line.length = 0
  · have none_ : words space typed.line = [] := by
      rw [List.length_eq_zero_iff.mp empty, words_nil]
    rw [if_pos empty, none_]
    exact .ok _ _ ⟨nodes, serving⟩
  · rw [if_neg empty, parsed, ok_bind]
    obtain ⟨found, same, _, texts⟩ := lineArgs_ok typed.line
    obtain rfl : (words space typed.line).take maxArgs = found := Except.ok.inj (parsed.symm.trans same)
    cases split : (words space typed.line).take maxArgs with
    | nil => exact .ok _ _ ⟨nodes, serving⟩
    | cons verb args =>
        rw [split] at parsed texts
        have same : Joins t verb args ↔ k.Fits verb args := serving.joins fun arg member =>
          Nat.le_trans (texts arg (List.mem_cons_of_mem verb member)).2 short
        by_cases fits : k.Fits verb args
        · have runs := runCommand_desk zeros serving banner typed.uptime verb args
            (fun arg member => (texts arg (List.mem_cons_of_mem verb member)).1)
            (fun call issued => issues_valid typed short parsed issued)
          simp only [if_pos fits, if_pos (same.mpr fits)]
          exact runs
        · simp only [if_neg fits, if_neg (mt same.mp fits)]
          exact .stop .fault

theorem Kept.prompts (kept : Kept raw k t) : Kept raw (k.puts k.prompt) (t.puts (t.cwdPath ++ ascii "$ ")) := by
  obtain ⟨nodes, serving⟩ := kept
  rw [Desk.prompt, ← serving.cwd]
  exact ⟨nodes, serving.puts _⟩

theorem shellTrip_desk (zeros : ∀ a i, raw a i = 0) (banner : List UInt8) (typed : Typed)
    (readable : typed.Readable) (kept : Kept raw k t) :
    Follows (fun m r => Kept raw m.2 r.2) (k.step banner typed) (shellTrip banner t typed) := by
  rw [shellTrip, Desk.step]
  exact (dispatch_desk zeros banner typed readable kept.prompts).bind fun _ _ later => .ok _ _ later

theorem attempt_desk (zeros : ∀ a i, raw a i = 0) (banner : List UInt8) (session : List Typed)
    (readable : ∀ typed ∈ session, typed.Readable) (kept : Kept raw k t) :
    Follows (fun m r => Kept raw m.2 r.2) (Replay.attempt (Desk.step banner) k session)
      (Replay.attempt (shellTrip banner) t session) := by
  apply (Replay.attempt_follows (shellTrip banner) (Desk.step banner) (fun t k => Kept raw k t)
    (fun _ _ => True) (fun _ typed => typed.Readable) ?_ session _ _ kept
    (Replay.along_of_forall (shellTrip banner) _ session _ readable)).mono
  · exact fun _ _ agrees => agrees.2
  · intro t k typed kept fits
    exact (shellTrip_desk zeros banner typed fits kept).mono fun _ _ later => ⟨trivial, later⟩

theorem Kept.seen (kept : Kept raw k t) : t.out = k.out ∧ t.cwdPath = k.cwd ∧ t.cwdIno = k.here ∧
    Shows t.fs k.disk ∧ t.fs.heap.room = k.volume.room := by
  obtain ⟨nodes, serving⟩ := kept
  refine ⟨serving.out, serving.cwd, serving.here.symm, ?_, serving.held.room⟩
  rw [serving.disk]
  exact fsOk_shows serving.ok.mounted.ok _

theorem shellStart_desk (banner : List UInt8) {fs : Fs σ} {nodes : List Node} (mounted : Mounted raw fs nodes)
    (held : HoldsVolume raw fs Volume.mounted nodes) (clean : CleanFiles nodes) :
    Kept raw (Desk.start banner Volume.mounted) (shellStart banner fs) :=
  ⟨nodes, shellStart_ok banner mounted, held, clean, rfl, rfl⟩

end Calling

/-- `fs_init`, `shell_run` and a session of lines, with the path buffers the shell has. -/
def shellSession (banner : List UInt8) (back : σ) (raw : Nat → Region) (session : List Typed) :
    Run (List Unit × Shell σ) := do
  let fs ← fsBoot back raw
  Replay.attempt (shellTrip banner) (shellStart banner fs) session

/-- Sessions are sessions at the desk: they stop exactly where the desk does, and
otherwise print the same bytes, end in the same directory and leave the desk's
disk in the store and the desk's budget in the heap. -/
theorem sessions_refine_desk (banner : List UInt8) (back : σ) (raw : Nat → Region)
    (ample : Ample (heapMaxSize / pageSize) back) (zeros : ∀ a i, raw a i = 0) (session : List Typed)
    (readable : ∀ typed ∈ session, typed.Readable) :
    Follows (fun m r => r.2.out = m.2.out ∧ r.2.cwdPath = m.2.cwd ∧ r.2.cwdIno = m.2.here ∧
        Shows r.2.fs m.2.disk ∧ r.2.fs.heap.room = m.2.volume.room)
      (Replay.attempt (Desk.step banner) (Desk.start banner Volume.mounted) session)
      (shellSession banner back raw session) := by
  obtain ⟨fs, booted, mounted, held⟩ := fsBoot_volume back raw ample
  rw [shellSession, booted, ok_bind]
  have start := shellStart_desk banner mounted held (CleanFiles.cons (fun _ none_ => absurd none_ List.not_mem_nil) _ 2)
  exact (attempt_desk zeros banner session readable start).mono fun _ _ kept => kept.seen

def fileSession : List Typed :=
  [⟨ascii "mkdir d", 0⟩, ⟨ascii "cd d", 0⟩, ⟨ascii "touch f", 0⟩, ⟨ascii "write f one  two", 0⟩,
    ⟨ascii "cat f", 0⟩, ⟨ascii "ls /", 0⟩, ⟨ascii "uptime", 7⟩]

example : (Replay.attempt (Desk.step []) (Desk.start [] Volume.mounted) fileSession).map
      (fun r => (r.2.cwd, r.2.out.drop 20, r.2.volume.room)) =
    .ok (ascii "/d", ascii "one two\r\n/d$ d/\r\n/d$ \rUptime: 7\r\n\n", heapMaxSize - 3 * 48 - 3 * blockSize) := by
  decide +kernel

theorem sessions_refine_desk_file :
    Follows (fun m r => r.2.out = m.2.out ∧ r.2.cwdPath = m.2.cwd ∧ r.2.cwdIno = m.2.here ∧
        Shows r.2.fs m.2.disk ∧ r.2.fs.heap.room = m.2.volume.room)
      (Replay.attempt (Desk.step []) (Desk.start [] Volume.mounted) fileSession)
      (shellSession [] Endless.mk (fun _ _ => 0) fileSession) := by
  have readable : ∀ typed ∈ fileSession, typed.Readable := by
    simp only [Typed.Readable]
    decide +kernel
  exact sessions_refine_desk [] Endless.mk (fun _ _ => 0) (ample_endless _ _) (fun _ _ => rfl) fileSession readable

end KehindeKernel
