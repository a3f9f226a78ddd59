import KehindeKernel.ShellRuns

/-!
What one line can do to the shell, whatever memory holds: it prints, it moves the
working directory, or it issues one filesystem call. Every property of sessions
that follows is read off `shellStep_effect`.
-/

namespace KehindeKernel

open Outcome Bytes

variable {σ : Type}

/-- The directory `cd` goes to, and the string it keeps for it. -/
structure Moves (t : Shell σ) (target : List UInt8) (next : Shell σ) : Prop where
  fs : next.fs = t.fs
  found : resolvePath t target = .ok next.cwdIno
  valid : next.cwdIno ≠ invalidIno
  dir : ∃ value size, fsStat t.fs next.cwdIno false true = .ok (value, size, some 2)
  path : (target.head? = some slash ∧ next.cwdPath = target) ∨
    (target.head? ≠ some slash ∧ joinCwd t target = .ok next.cwdPath)

/-- The calls `mkdir`, `touch`, `rm` and `write` make. -/
inductive Issues (t : Shell σ) (args : List (List UInt8)) : FsCall → Prop where
  | create (name : List UInt8) (inodeType : UInt8) (member : name ∈ args) :
      Issues t args (.create t.cwdIno (name ++ [0]) inodeType)
  | unlink (name : List UInt8) (member : name ∈ args) : Issues t args (.unlink t.cwdIno (name ++ [0]))
  | write (ino : Nat) (words : List (List UInt8)) (among : words ⊆ args) (few : words.length ≤ args.length) :
      Issues t args (.write ino 0 (joinArgs words).length (some (joinArgs words ++ [0])))

inductive LineEffect [Backing σ] (t : Shell σ) (verb : List UInt8) (args : List (List UInt8)) :
    Shell σ → Prop where
  | prints (next : Shell σ) (same : OnlyPrints t next) : LineEffect t verb args next
  | moves (target : List UInt8) (rest : List (List UInt8)) (next : Shell σ)
      (command : seq verb (ascii "cd") = true) (first : args = target :: rest)
      (moved : Moves t target next) : LineEffect t verb args next
  | calls (call : FsCall) (out : FsResult) (next : Shell σ) (issued : Issues t args call)
      (done : fsStep t.fs call = .ok (out, next.fs)) (ino : next.cwdIno = t.cwdIno)
      (path : next.cwdPath = t.cwdPath)
      (linked : (∀ c, appendingCall t verb args = some c → NullLinks t.fs c) → NullLinks t.fs call) :
      LineEffect t verb args next

section Commands

variable {t : Shell σ} {verb : List UInt8} {args : List (List UInt8)}

theorem lsEntries_prints (dirIno fuel i : Nat) (any : Bool) :
    Returns (OnlyPrints t) (lsEntries dirIno fuel i any t) := by
  induction fuel generalizing i any t with
  | zero => exact returns_error _
  | succ fuel ih =>
      rw [lsEntries]
      apply returns_bind
      rintro ⟨value, entry⟩ _
      refine returns_ite (fun _ => ?_) fun _ => ?_
      · apply returns_bind
        intro entry _
        apply returns_bind
        intro name _
        apply returns_bind
        rintro ⟨_, _, type⟩ _
        exact (ih (i + 1) true).mono fun _ later => (onlyPrints_puts t _).trans later
      · apply returns_ok
        split
        · exact onlyPrints_refl t
        · exact onlyPrints_puts t _

theorem catChunks_prints (ino fuel offset : Nat) : Returns (OnlyPrints t) (catChunks ino fuel offset t) := by
  induction fuel generalizing offset t with
  | zero => exact returns_error _
  | succ fuel ih =>
      rw [catChunks]
      apply returns_bind
      rintro ⟨n, data⟩ _
      refine returns_ite (fun _ => ?_) fun _ => returns_ite (fun _ => ?_) fun _ => ?_
      · apply returns_bind
        intro shown _
        exact (ih (offset + n.toNat)).mono fun _ later => (onlyPrints_puts t _).trans later
      · exact returns_ok (onlyPrints_puts t _)
      · exact returns_ok (onlyPrints_puts t _)

variable [Backing σ]

theorem returns_prints {next : Shell σ} (same : OnlyPrints t next) :
    Returns (LineEffect t verb args) (pure next) := returns_ok (.prints next same)

theorem returns_puts (bytes : List UInt8) : Returns (LineEffect t verb args) (pure (t.puts bytes)) :=
  returns_prints (onlyPrints_puts t bytes)

/-- A command ends with its call and a message if the call failed. -/
theorem returns_call {call : FsCall} (out : FsResult) {fs : Fs σ} (issued : Issues t args call)
    (done : fsStep t.fs call = .ok (out, fs))
    (linked : (∀ c, appendingCall t verb args = some c → NullLinks t.fs c) → NullLinks t.fs call)
    (failed : Prop) [Decidable failed] (bytes : List UInt8) :
    Returns (LineEffect t verb args)
      (pure (if failed then ({ t with fs := fs } : Shell σ).puts bytes else { t with fs := fs })) := by
  apply returns_ok
  split
  · exact .calls call out _ issued done rfl rfl linked
  · exact .calls call out _ issued done rfl rfl linked

theorem cmdLs_effect : Returns (LineEffect t verb args) (cmdLs t args) := by
  have lists : ∀ dirIno, Returns (LineEffect t verb args) (lsEntries dirIno walkFuel 0 false t) :=
    fun dirIno => (lsEntries_prints dirIno walkFuel 0 false).mono fun next same => .prints next same
  cases args with
  | nil => exact lists t.cwdIno
  | cons path rest =>
      apply returns_bind
      intro dirIno _
      exact returns_ite (fun _ => returns_puts _) fun _ => lists dirIno

theorem cmdCat_effect : Returns (LineEffect t verb args) (cmdCat t args) := by
  cases args with
  | nil => exact returns_puts _
  | cons file rest =>
      apply returns_bind
      intro ino _
      exact returns_ite (fun _ => returns_puts _) fun _ =>
        (catChunks_prints ino walkFuel 0).mono fun next same => .prints next same

theorem cmdCd_effect (command : seq verb (ascii "cd") = true) :
    Returns (LineEffect t verb args) (cmdCd t args) := by
  cases args with
  | nil => exact returns_puts _
  | cons target rest =>
      apply returns_bind
      intro newIno found
      refine returns_ite (fun _ => returns_puts _) fun valid => ?_
      apply returns_bind
      rintro ⟨value, size, type⟩ stated
      refine returns_ite (fun _ => returns_puts _) fun isDir => ?_
      have dir : ∃ value size, fsStat t.fs newIno false true = .ok (value, size, some 2) :=
        ⟨value, size, by rw [stated, not_not.mp isDir]⟩
      refine returns_ite (fun absolute => ?_) fun relative => ?_
      · exact returns_ok (.moves target rest _ command rfl ⟨rfl, found, valid, dir, Or.inl ⟨absolute, rfl⟩⟩)
      · apply returns_bind
        intro full joined
        exact returns_ok (.moves target rest _ command rfl ⟨rfl, found, valid, dir, Or.inr ⟨relative, joined⟩⟩)

theorem cmdRm_effect : Returns (LineEffect t verb args) (cmdRm t args) := by
  cases args with
  | nil => exact returns_puts _
  | cons name rest =>
      refine returns_ite (fun _ => returns_puts _) fun _ => ?_
      apply returns_bind
      rintro ⟨value, fs⟩ done
      exact returns_call (.code value) (.unlink name List.mem_cons_self)
        (by rw [fsStep, done, ok_bind]; rfl) (fun _ => trivial) (value < 0) _

theorem cmdMake_effect (word : String) (inodeType : UInt8)
    (appends : appendingCall t verb args = makeCall t inodeType args) :
    Returns (LineEffect t verb args) (cmdMake word inodeType t args) := by
  cases args with
  | nil => exact returns_puts _
  | cons name rest =>
      refine returns_ite (fun _ => returns_puts _) fun relative => ?_
      apply returns_bind
      rintro ⟨number, fs⟩ done
      exact returns_call (.ino number) (.create name inodeType List.mem_cons_self)
        (by rw [fsStep, done, ok_bind]; rfl)
        (fun links => links _ (by rw [appends, makeCall, if_neg relative])) (number = invalidIno) _

theorem cmdWrite_effect (appends : appendingCall t verb args = writeCall t args) :
    Returns (LineEffect t verb args) (cmdWrite t args) := by
  rcases args with _ | ⟨file, _ | ⟨word, rest⟩⟩
  · exact returns_puts _
  · exact returns_puts _
  · apply returns_bind
    intro ino resolved
    refine returns_ite (fun _ => returns_puts _) fun valid => ?_
    apply returns_bind
    rintro ⟨value, fs⟩ done
    exact returns_call (.code value)
      (.write ino (word :: rest) (List.subset_cons_self file _) (Nat.le_succ _))
      (by rw [fsStep, done, ok_bind]; rfl)
      (fun links => links _ (by rw [appends, writeCall, resolved]; exact if_neg valid)) (value < 0) _

theorem runCommand_effect (banner : List UInt8) (uptime : Nat) :
    Returns (LineEffect t verb args) (runCommand banner t uptime verb args) := by
  unfold runCommand
  refine returns_ite (fun _ => returns_puts _) fun _ => ?_
  refine returns_ite (fun _ => cmdLs_effect) fun _ => ?_
  refine returns_ite (fun _ => returns_prints ((onlyPrints_puts t _).trans (onlyPrints_puts _ newline)))
    fun _ => ?_
  refine returns_ite cmdCd_effect fun _ => ?_
  refine returns_ite (fun mkdir => cmdMake_effect "mkdir" 2 (if_pos mkdir)) fun notMkdir => ?_
  refine returns_ite (fun touch => cmdMake_effect "touch" 1 ((if_neg notMkdir).trans (if_pos touch)))
    fun notTouch => ?_
  refine returns_ite (fun _ => cmdCat_effect) fun _ => ?_
  refine returns_ite (fun write => cmdWrite_effect
    ((if_neg notMkdir).trans ((if_neg notTouch).trans (if_pos write)))) fun _ => ?_
  refine returns_ite (fun _ => cmdRm_effect) fun _ => ?_
  refine returns_ite (fun _ => returns_puts _) fun _ => ?_
  refine returns_ite (fun _ => returns_puts _) fun _ => ?_
  refine returns_ite (fun _ => returns_error _) fun _ => ?_
  exact returns_ite (fun _ => returns_puts _) fun _ => returns_puts _

/-- A step prints, moves or issues a call, on the arguments of its line. -/
theorem shellStep_effect (banner : List UInt8) (typed : Typed) (next : Shell σ) (out : Unit)
    (done : shellStep banner t typed = .ok (out, next)) :
    OnlyPrints t next ∨ ∃ verb args, lineArgs typed.line = .ok (verb :: args) ∧
      LineEffect (t.puts (t.cwdPath ++ ascii "$ ")) verb args next := by
  have prompts := onlyPrints_puts t (t.cwdPath ++ ascii "$ ")
  rw [shellStep] at done
  by_cases empty : typed.line.length = 0
  · rw [if_pos empty] at done
    obtain rfl := (Prod.mk.inj (Except.ok.inj done)).2
    exact Or.inl prompts
  · rw [if_neg empty] at done
    obtain ⟨words, parsed, rest⟩ := (bind_ok_iff _ _ _).mp done
    cases words with
    | nil =>
        obtain rfl := (Prod.mk.inj (Except.ok.inj rest)).2
        exact Or.inl prompts
    | cons verb args =>
        obtain ⟨t', ran, last⟩ := (bind_ok_iff _ _ _).mp rest
        obtain rfl := (Prod.mk.inj (Except.ok.inj last)).2
        exact Or.inr ⟨verb, args, parsed, runCommand_effect banner typed.uptime t' ran⟩

end Commands

end KehindeKernel
