import KehindeKernel.ShellSteps

/-!
The two path buffers of the shell, `full` in `resolve_path` and `cwd_path`, against
their capacity. Both are filled without a length test, so `cwd_path` grows with
every relative `cd` and the joined path with it.
-/

namespace KehindeKernel

open Outcome Bytes

variable {σ : Type}

/-- `MAX_PATH` -/
def maxPath : Nat := 512

/-- The argument that a command hands to `resolve_path`. -/
def resolvedArg (verb : List UInt8) : List (List UInt8) → Option (List UInt8)
  | [] => none
  | path :: rest =>
      if seq verb (ascii "ls") ∨ seq verb (ascii "cd") ∨ seq verb (ascii "cat") then some path
      -- `write` refuses a line without a text before it resolves the file
      else if seq verb (ascii "write") ∧ rest ≠ [] then some path
      else none

def FitsPath (path : List UInt8) : Prop := path.length + 1 ≤ maxPath

/-- What a line writes to the two buffers fits them. -/
structure PathsFit [Backing σ] (banner : List UInt8) (t : Shell σ) (typed : Typed) : Prop where
  full : ∀ verb args arg path, lineArgs typed.line = .ok (verb :: args) → resolvedArg verb args = some arg →
    arg.head? ≠ some slash → joinCwd t arg = .ok path → FitsPath path
  cwd : ∀ out next, shellStep banner t typed = .ok (out, next) → FitsPath next.cwdPath

def joinLength (t : Shell σ) (arg : List UInt8) : Nat :=
  t.cwdPath.length + (if t.cwdPath.getLast? = some slash then 0 else 1) + arg.length

/-- A relative argument that the line resolves is short enough to go behind the
path of the working directory. -/
def JoinRoom (t : Shell σ) (typed : Typed) : Prop :=
  ∀ verb args arg, lineArgs typed.line = .ok (verb :: args) → resolvedArg verb args = some arg →
    arg.head? ≠ some slash → joinLength t arg < maxPath

def CwdFits (t : Shell σ) : Prop := t.cwdPath ≠ [] ∧ FitsPath t.cwdPath

variable {t : Shell σ}

theorem joinCwd_length (some_ : t.cwdPath ≠ []) (arg : List UInt8) :
    ∃ path, joinCwd t arg = .ok path ∧ path.length = joinLength t arg ∧ path ≠ [] := by
  rw [joinCwd, joinLength, List.getLast?_eq_some_getLast some_, fetch_some, ok_bind]
  by_cases last : t.cwdPath.getLast some_ = slash
  · refine ⟨t.cwdPath ++ arg, by simp [last], by simp [last], by simp [some_]⟩
  · refine ⟨t.cwdPath ++ slash :: arg, by simp [last], ?_, by simp⟩
    simp only [List.length_append, List.length_cons, Option.some.injEq, last, ↓reduceIte]
    omega

theorem arg_short (typed : Typed) (short : typed.line.length < maxLine) (words : List (List UInt8))
    (parsed : lineArgs typed.line = .ok words) (arg : List UInt8) (member : arg ∈ words) :
    arg.length ≤ maxLine := by
  obtain ⟨words', parsed', _, texts⟩ := lineArgs_ok typed.line
  obtain rfl : words' = words := Except.ok.inj (parsed'.symm.trans parsed)
  exact Nat.le_trans (texts arg member).2 short

variable [Backing σ]

theorem resolvedArg_cd {verb target : List UInt8} {rest : List (List UInt8)}
    (command : seq verb (ascii "cd") = true) : resolvedArg verb (target :: rest) = some target := by
  rw [resolvedArg, if_pos (Or.inr (Or.inl command))]

theorem cwd_fits_step (banner : List UInt8) (fits : CwdFits t) (typed : Typed)
    (short : typed.line.length < maxLine) (room : JoinRoom t typed) (out : Unit) (next : Shell σ)
    (done : shellStep banner t typed = .ok (out, next)) : CwdFits next := by
  rcases shellStep_effect banner typed next out done with same | ⟨verb, args, parsed, effect⟩
  · rw [CwdFits, same.cwdPath]
    exact fits
  · cases effect with
    | prints _ same =>
        rw [CwdFits, same.cwdPath]
        exact fits
    | calls call out _ issued stepped ino path _ =>
        rw [CwdFits, path]
        exact fits
    | moves target rest _ command first moved =>
        subst first
        rcases moved.path with ⟨absolute, stored⟩ | ⟨relative, joined⟩
        · -- an absolute target is copied from the line buffer, which is the smaller one
          have fromLine := arg_short typed short _ parsed target (by simp)
          rw [CwdFits, stored]
          refine ⟨?_, Nat.le_trans (Nat.succ_le_succ fromLine) (by decide)⟩
          rintro rfl
          contradiction
        · obtain ⟨path, made, length, some_⟩ := joinCwd_length fits.1 target
          obtain rfl : path = next.cwdPath := Except.ok.inj (made.symm.trans joined)
          have below := room verb _ target parsed (resolvedArg_cd command) relative
          exact ⟨some_, by rw [FitsPath, length]; exact below⟩

theorem paths_fit_iff (banner : List UInt8) (fits : CwdFits t) (typed : Typed)
    (short : typed.line.length < maxLine) : PathsFit banner t typed ↔ JoinRoom t typed := by
  constructor
  · intro paths verb args arg parsed resolved relative
    obtain ⟨path, made, length, _⟩ := joinCwd_length fits.1 arg
    have bound := paths.full verb args arg path parsed resolved relative made
    rw [FitsPath, length] at bound
    exact bound
  · intro room
    refine ⟨?_, fun out next done => (cwd_fits_step banner fits typed short room out next done).2⟩
    intro verb args arg path parsed resolved relative made
    obtain ⟨path', made', length, _⟩ := joinCwd_length fits.1 arg
    obtain rfl : path' = path := Except.ok.inj (made'.symm.trans made)
    rw [FitsPath, length]
    exact room verb args arg parsed resolved relative

/-- Along every session both buffers hold what is written to them exactly if every
relative argument that is resolved finds room behind the working directory. -/
theorem path_buffers_fit_iff (banner : List UInt8) (fs : Fs σ) (session : List Typed)
    (short : ∀ typed ∈ session, typed.line.length < maxLine) :
    Replay.Along (shellStep banner) (PathsFit banner) (shellStart banner fs) session ↔
      Replay.Along (shellStep banner) JoinRoom (shellStart banner fs) session :=
  Replay.along_congr (shellStep banner) CwdFits (fun typed => typed.line.length < maxLine)
    (PathsFit banner) JoinRoom (fun _ typed fits small => paths_fit_iff banner fits typed small)
    (fun _ typed out next fits small paths done => cwd_fits_step banner fits typed small
      ((paths_fit_iff banner fits typed small).mp paths) out next done)
    session (shellStart banner fs) ⟨List.cons_ne_nil _ _, show 2 ≤ maxPath by decide⟩ short

def deepSession : List Typed :=
  [⟨ascii "mkdir " ++ List.replicate 129 97, 0⟩, ⟨ascii "cd " ++ List.replicate 129 97, 0⟩,
    ⟨ascii "mkdir " ++ List.replicate 128 98, 0⟩, ⟨ascii "cd " ++ List.replicate 128 98, 0⟩]

def longName : List UInt8 := List.replicate 252 99

def overlongLine : Typed := ⟨ascii "ls " ++ longName, 0⟩

theorem path_buffers_fit_iff_deep : ∃ fs, fsBoot Endless.mk (fun _ _ => 0) = .ok fs ∧
    (Replay.Along (shellStep []) (PathsFit []) (shellStart [] fs) deepSession ↔
      Replay.Along (shellStep []) JoinRoom (shellStart [] fs) deepSession) := by
  have short : ∀ typed ∈ deepSession, typed.line.length < maxLine := by decide +kernel
  exact ⟨_, rfl, path_buffers_fit_iff [] _ deepSession short⟩

/-- The path that `ls` assembles takes 513 bytes. -/
theorem ls_overflows_path_buffer : ∃ fs, fsBoot Endless.mk (fun _ _ => 0) = .ok fs ∧
    (∀ typed ∈ deepSession ++ [overlongLine], typed.line.length < maxLine) ∧
    ¬ Replay.Along (shellStep []) (PathsFit []) (shellStart [] fs) (deepSession ++ [overlongLine]) := by
  have seen : (fsBoot Endless.mk (fun _ _ => 0) >>= fun fs =>
      Replay.attempt (shellStep []) (shellStart [] fs) deepSession >>= fun r =>
      joinCwd r.2 longName >>= fun path => .ok path.length) = (.ok 512 : Run Nat) := by decide +kernel
  obtain ⟨fs, booted, ⟨outs, last⟩, done, path, joined, length⟩ := by
    simpa only [bind_ok_iff] using seen
  refine ⟨fs, booted, by decide +kernel, ?_⟩
  intro along
  have paths := along.reached deepSession overlongLine _ last outs done
  have parsed : lineArgs overlongLine.line = .ok [ascii "ls", longName] := by decide +kernel
  have bound := paths.full (ascii "ls") [longName] longName path parsed (by decide +kernel)
    (by decide +kernel) joined
  rw [FitsPath, Except.ok.inj length] at bound
  exact absurd bound (by decide)

end KehindeKernel
