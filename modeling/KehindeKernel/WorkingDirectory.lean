import KehindeKernel.ShellSteps

/-!
The two representations of the working directory. `cwd_path` keeps leading to
`cwd_ino`, a directory, and every directory on the way stays where it is: the
commands work on `cwd_ino`, and numbers grow along the way. Path buffers are taken
as large enough here.
-/

namespace KehindeKernel

open Outcome Bytes DirectoryTree

variable {σ : Type}

/-- The inode and the path name one directory. -/
structure Coherent (t : Shell σ) : Prop where
  dir : fsStat t.fs t.cwdIno false true = .ok (0, none, some 2)
  path : fsLookup t.fs (t.cwdPath ++ [0]) = .ok t.cwdIno

/-- `front` is `path` up to the end of one of its components. -/
def OnTheWay (front path : List UInt8) : Prop :=
  front ≠ [] ∧ ∃ rest, path = front ++ rest ∧ (rest = [] ∨ rest.head? = some slash)

/-- Each directory on the way to the working directory of `t` is the one it was. -/
def WayKept (t next : Shell σ) : Prop :=
  ∀ front, OnTheWay front t.cwdPath → ∃ k, fsLookup t.fs (front ++ [0]) = .ok k ∧
    fsLookup next.fs (front ++ [0]) = .ok k ∧ fsStat next.fs k false true = .ok (0, none, some 2)

section Way

variable {raw : Nat → Region} {t : Shell σ} {nodes nodes' : List Node}

theorem dir_stat {s : Fs σ} (ok : FsOk raw s nodes) {k : Nat} {n : Node} (found : findNode nodes k = some n)
    (dir : n.inode.inodeType = 2) : fsStat s k false true = .ok (0, none, some 2) := by
  rw [fsStat_spec ok.shape, found]
  simp [dir]

theorem lookup_plain {s : Fs σ} (ok : FsOk raw s nodes) (line : List UInt8) (plain : 0 ∉ line) :
    fsLookup s (line ++ [0]) = .ok (lookupResult nodes line) :=
  fsLookup_spec ok.shape ok.tree (line ++ [0]) line (terminated_cstring line plain)

theorem ShellOk.coherent (ok : ShellOk raw t nodes) : Coherent t := by
  obtain ⟨n, found, dir, _⟩ := ok.known
  exact ⟨dir_stat ok.mounted.ok found dir, by rw [lookup_plain ok.mounted.ok _ ok.plain, ok.here]⟩

/-- The components of a path on the way begin those of the whole path. -/
theorem components_on_the_way (f r : List UInt8) :
    components (slash :: (f ++ slash :: r)) = components (slash :: f) ++ r.splitOn slash := by
  rw [components, components, List.tail_cons, List.tail_cons, List.splitOn_append_cons_self]

/-- A path on the way is walked to a directory no number above the working directory's. -/
theorem ShellOk.way (ok : ShellOk raw t nodes) (f : List UInt8) (some_ : f ≠ [])
    (on : OnTheWay (slash :: f) t.cwdPath) : ∃ k, k ≤ t.cwdIno ∧ (dirsOf nodes k).isSome ∧
      walk (dirsOf nodes) rootIno ((components (slash :: f)).take 16) = some k := by
  obtain ⟨_, rest, path, ends⟩ := on
  have walked : walk (dirsOf nodes) rootIno ((components t.cwdPath).take 16) = some t.cwdIno := by
    obtain ⟨_, _, _, positive, _⟩ := ok.known
    have here := ok.here
    rw [lookupResult, if_neg ok.cwd_ne_nil, if_neg (by simp [path, some_])] at here
    cases reached : walk (dirsOf nodes) rootIno ((components t.cwdPath).take 16) with
    | none =>
        rw [reached] at here
        rw [← here] at positive
        exact absurd positive (by decide)
    | some last =>
        rw [reached] at here
        exact congrArg some here
  rcases ends with rfl | cut
  · rw [List.append_nil] at path
    exact ⟨t.cwdIno, Nat.le_refl _, ok.dir, path ▸ walked⟩
  · obtain ⟨r, rfl⟩ : ∃ r, rest = slash :: r := by
      cases rest with
      | nil => contradiction
      | cons c r => exact ⟨r, by rw [List.head?_cons, Option.some.injEq] at cut; rw [cut]⟩
    rw [path, List.cons_append, components_on_the_way, List.take_append, walk_append] at walked
    obtain ⟨k, first, later⟩ := Option.bind_eq_some_iff.mp walked
    have low := walk_increases (dirsOf nodes) (dirsOf_grows ok.mounted.ok.tree) k _ _ later
    refine ⟨k, by omega, ?_, first⟩
    -- either the walk goes on from `k`, or the cut at 16 components made `k` its end
    cases more : (r.splitOn slash).take (16 - (components (slash :: f)).length) with
    | nil =>
        rw [more, walk_nil, Option.some.injEq] at later
        exact later ▸ ok.dir
    | cons name behind =>
        rw [more, walk_cons] at later
        obtain ⟨next, step, _⟩ := Option.bind_eq_some_iff.mp later
        obtain ⟨l, listed, _⟩ := child_eq_some _ _ _ _ step
        rw [listed]
        rfl

/-- Directories below the working directory that stay as they are keep the way. -/
theorem ShellOk.way_kept (ok : ShellOk raw t nodes) (next : Shell σ) (kept : FsOk raw next.fs nodes')
    (below : ∀ k, k < t.cwdIno → dirsOf nodes' k = dirsOf nodes k)
    (dirs : ∀ k, (dirsOf nodes k).isSome → fsStat next.fs k false true = .ok (0, none, some 2)) :
    WayKept t next := by
  intro front on
  obtain ⟨some_, rest, path, _⟩ := id on
  have plain : 0 ∉ front := fun inside => ok.plain (path ▸ List.mem_append_left rest inside)
  obtain ⟨c, f, rfl⟩ := List.exists_cons_of_ne_nil some_
  obtain rfl : c = slash := by
    have first := ok.absolute
    rw [path, List.cons_append, List.head?_cons] at first
    exact Option.some.inj first
  rw [lookup_plain ok.mounted.ok _ plain, lookup_plain kept _ plain]
  by_cases bare : f = []
  · subst bare
    obtain ⟨r, found, dir⟩ := ok.mounted.root
    exact ⟨rootIno, rfl, rfl, dirs rootIno (by rw [dirsOf_dir found dir]; rfl)⟩
  · obtain ⟨k, low, listed, walked⟩ := ok.way f bare on
    have again := walk_below (dirsOf nodes) (dirsOf_grows ok.mounted.ok.tree) (dirsOf nodes') _ _ k walked
      fun j less => below j (Nat.lt_of_lt_of_le less low)
    have notRoot : slash :: f ≠ [slash] := by simpa using bare
    refine ⟨k, ?_, ?_, dirs k listed⟩
    · rw [lookupResult, if_neg some_, if_neg notRoot, walked]
      rfl
    · rw [lookupResult, if_neg some_, if_neg notRoot, again]
      rfl

end Way

section Sessions

variable {raw : Nat → Region} {t : Shell σ} {nodes : List Node}

theorem issues_site {args : List (List UInt8)} {call : FsCall} (issued : Issues t args call) (k : Nat)
    (site : call.site = some k) : k = t.cwdIno := by
  cases issued with
  | create => exact (Option.some.inj site).symm
  | unlink => exact (Option.some.inj site).symm
  | write => contradiction

theorem issues_valid (typed : Typed) (short : typed.line.length < maxLine) {verb : List UInt8}
    {args : List (List UInt8)} (parsed : lineArgs typed.line = .ok (verb :: args)) {call : FsCall}
    (issued : Issues t args call) : call.Valid := by
  obtain ⟨words, parsed', few, texts⟩ := lineArgs_ok typed.line
  obtain rfl : words = verb :: args := Except.ok.inj (parsed'.symm.trans parsed)
  have plain : ∀ name ∈ args, ∃ line, Terminated (name ++ [0]) line := fun name member =>
    ⟨name, terminated_cstring name (texts name (List.mem_cons_of_mem verb member)).1⟩
  cases issued with
  | create name inodeType member => exact ⟨plain name member, trivial⟩
  | unlink name member => exact ⟨plain name member, trivial⟩
  | write ino words among fewer =>
      have long := joinArgs_length maxLine words fun arg member =>
        Nat.le_trans (texts arg (List.mem_cons_of_mem verb (among member))).2 short
      have small : 0 + (joinArgs words).length < 2 ^ 64 := by
        simp only [List.length_cons, maxArgs, maxLine] at *
        have bound := Nat.mul_le_mul_right 257 (Nat.le_trans (Nat.le_succ_of_le fewer) few)
        omega
      refine ⟨wellFormed_write ino (Or.inl small) ?_, small⟩
      rw [List.length_append]
      exact Nat.le_add_right _ _

variable [Backing σ]

/-- No line redirects a directory on the way to the working directory. -/
theorem ShellOk.step_keeps_way (ok : ShellOk raw t nodes) (null : ∀ a, decode 8 (raw a) = 0)
    (banner : List UInt8) (typed : Typed) (short : typed.line.length < maxLine) (out : Unit) (next : Shell σ)
    (done : shellStep banner t typed = .ok (out, next)) : WayKept t next := by
  have stays : next.fs = t.fs → WayKept t next := by
    intro same
    refine ok.way_kept next (same ▸ ok.mounted.ok) (fun _ _ => rfl) ?_
    intro k listed
    obtain ⟨l, isDir⟩ := Option.isSome_iff_exists.mp listed
    obtain ⟨n, found, dir, _⟩ := dirsOf_eq_some isDir
    exact dir_stat (same ▸ ok.mounted.ok) found dir
  rcases shellStep_effect banner typed next out done with same | ⟨verb, args, parsed, effect⟩
  · exact stays same.fs
  · cases effect with
    | prints _ same => exact stays same.fs
    | moves _ _ _ _ _ moved => exact stays moved.fs
    | calls call value _ issued stepped ino path _ =>
        have ok' := ok.prints (onlyPrints_puts t (t.cwdPath ++ ascii "$ "))
        have links := nullLinks_null t.fs (by rw [ok.mounted.ok.shape.memory]; exact null) call
        obtain ⟨nodes', served, kept⟩ := (fsStep_effect ok'.mounted.ok call
          (issues_valid typed short parsed issued).wellFormed links).of_eq stepped
        refine ok.way_kept next kept (ok'.below call value served (issues_site issued)) ?_
        intro k listed
        obtain ⟨l, isDir⟩ := Option.isSome_iff_exists.mp listed
        obtain ⟨n, found, dir, _⟩ := dirsOf_eq_some isDir
        obtain ⟨n', found', same⟩ := effect_type ok.mounted.ok call value served k n found
        exact dir_stat kept found' (same.trans dir)

/-- In zero-filled memory, after every session the path of the working directory
leads to its inode, and no further line redirects a directory on the way. -/
theorem working_directory_coherent (banner : List UInt8) (back : σ) (raw : Nat → Region)
    (zeros : ∀ a i, raw a i = 0) (session : List Typed)
    (short : ∀ typed ∈ session, typed.line.length < maxLine) :
    Guarded (fun r => Coherent r.2 ∧ ∀ typed out next, typed.line.length < maxLine →
        shellStep banner r.2 typed = .ok (out, next) → WayKept r.2 next)
      (shellRun banner back raw session) := by
  apply (shellRun_ok banner back raw session short
    (sessionLinks_zero banner back raw zeros session short)).mono
  rintro ⟨_, t⟩ ⟨nodes, ok⟩
  exact ⟨ok.coherent, fun typed out next fits done =>
    ok.step_keeps_way (zero_null zeros) banner typed fits out next done⟩

end Sessions

def nestingSession : List Typed :=
  [⟨ascii "mkdir a", 0⟩, ⟨ascii "cd a", 1⟩, ⟨ascii "mkdir b", 2⟩, ⟨ascii "rm b", 3⟩]

theorem working_directory_coherent_nesting :
    ∃ r, shellRun [] Endless.mk (fun _ _ => 0) nestingSession = .ok r ∧ Coherent r.2 ∧
      ∀ typed out next, typed.line.length < maxLine →
        shellStep [] r.2 typed = .ok (out, next) → WayKept r.2 next := by
  have guarded := working_directory_coherent [] Endless.mk (fun _ _ => 0) (fun _ _ => rfl) nestingSession
    (by decide +kernel)
  exact guarded.returned (by decide +kernel)

end KehindeKernel
