import KehindeKernel.Filesystem

/-!
The shell of `shell.cpp`: one step takes one received line through `parse_args`
and the command table. `out` collects what is sent to the UART. Strings are their
bytes without the terminator, in buffers taken as large enough; `banner` is the
text `print_banner` sends.
-/

namespace KehindeKernel

open Outcome

/-- `MAX_LINE` -/
def maxLine : Nat := 256

/-- `MAX_ARGS` -/
def maxArgs : Nat := 16

/-- The character `' '`. -/
def space : UInt8 := 32

def ascii (s : String) : List UInt8 := s.toList.map fun c => UInt8.ofNat c.toNat

def newline : List UInt8 := [13, 10]

structure Shell (σ : Type) where
  fs : Fs σ
  cwdIno : Nat
  cwdPath : List UInt8
  out : List UInt8

/-- A received line and the seconds the timer shows when it is run. -/
structure Typed where
  line : List UInt8
  uptime : Nat

variable {σ : Type}

/-- `uart_puts` -/
def Shell.puts (t : Shell σ) (bytes : List UInt8) : Shell σ := { t with out := t.out ++ bytes }

/-- The string a C buffer holds. -/
def cText (bytes : List UInt8) : Run (List UInt8) := do
  let n ← strlen bytes
  pure (bytes.take n)

def seq : List UInt8 → List UInt8 → Bool
  | [], [] => true
  | a :: rest, b :: rest' => a == b && seq rest rest'
  | _, _ => false

/-- `join_args` over the arguments from `start` on. -/
def joinArgs : List (List UInt8) → List UInt8
  | [] => []
  | [word] => word
  | word :: rest => word ++ space :: joinArgs rest

/-- `while (*p == ' ') p++` -/
def skipSpaces (buf : List UInt8) : Nat → Nat → Run Nat
  | 0, _ => throw .hang
  | fuel + 1, p => do
      let c ← fetch buf[p]?
      if c = space then skipSpaces buf fuel (p + 1) else pure p

/-- `while (*p && *p != ' ') p++` -/
def tokenEnd (buf : List UInt8) : Nat → Nat → Run Nat
  | 0, _ => throw .hang
  | fuel + 1, p => do
      let c ← fetch buf[p]?
      if c ≠ 0 ∧ c ≠ space then tokenEnd buf fuel (p + 1) else pure p

/-- `if (*p) *p++ = '\0'` -/
def cutToken (buf : List UInt8) (p : Nat) : Run (List UInt8 × Nat) := do
  let c ← fetch buf[p]?
  if c ≠ 0 then pure (buf.set p 0, p + 1) else pure (buf, p)

/-- The loop of `parse_args` with `free` slots of `argv` left. -/
def parseArgsFrom : Nat → List UInt8 → Nat → Run (List UInt8 × List Nat)
  | 0, buf, p => do
      let _ ← fetch buf[p]?
      pure (buf, [])
  | free + 1, buf, p => do
      let c ← fetch buf[p]?
      if c = 0 then pure (buf, [])
      else
        let start ← skipSpaces buf (buf.length + 1) p
        let c ← fetch buf[start]?
        if c = 0 then pure (buf, [])
        else
          let stop ← tokenEnd buf (buf.length + 1) start
          let (buf, p) ← cutToken buf stop
          let (buf, argv) ← parseArgsFrom free buf p
          pure (buf, start :: argv)

/-- The cut line and the offsets `parse_args` puts into `argv`. -/
def parseArgs (buf : List UInt8) (maxArgc : Nat) : Run (List UInt8 × List Nat) :=
  parseArgsFrom maxArgc buf 0

/-- The string an `argv` pointer leads to. -/
def argText (buf : List UInt8) (start : Nat) : List UInt8 := Bytes.text (buf.drop start)

/-- The arguments of a received line. -/
def lineArgs (line : List UInt8) : Run (List (List UInt8)) := do
  let (buf, argv) ← parseArgs (line ++ [0]) maxArgs
  pure (argv.map (argText buf))

/-- The string `resolve_path` looks up for a relative argument, and `cmd_cd` stores. -/
def joinCwd (t : Shell σ) (arg : List UInt8) : Run (List UInt8) := do
  let last ← fetch t.cwdPath.getLast?
  pure (if last ≠ slash then t.cwdPath ++ slash :: arg else t.cwdPath ++ arg)

def resolvePath (t : Shell σ) (arg : List UInt8) : Run Nat :=
  if arg.head? = some slash then fsLookup t.fs (arg ++ [0])
  else do
    let full ← joinCwd t arg
    fsLookup t.fs (full ++ [0])

def cmdHelp (t : Shell σ) : Shell σ :=
  t.puts (List.flatMap ascii [
    "Commands:\r\n",
    "  ls [path]              list directory\r\n",
    "  pwd                    print working directory\r\n",
    "  cd <path>              change directory\r\n",
    "  mkdir <name>           create directory\r\n",
    "  touch <name>           create empty file\r\n",
    "  write <file> <text>    write text to file\r\n",
    "  cat <file>             print file contents\r\n",
    "  rm <name>              remove file or empty directory\r\n",
    "  clear                  clear the screen\r\n",
    "  kernel                 show kernel info\r\n",
    "  uptime                 print the uptime of the kernel\r\n",
    "  shutdown               halt the system\r\n",
    "  help                   show this message\r\n"])

def cmdClear (t : Shell σ) : Shell σ := t.puts (ascii "\x1b[2J\x1b[H")

def cmdPwd (t : Shell σ) : Shell σ := (t.puts t.cwdPath).puts newline

/-- The loop of `cmd_ls` over the entries of a directory. -/
def lsEntries (dirIno : Nat) : Nat → Nat → Bool → Shell σ → Run (Shell σ)
  | 0, _, _, _ => throw .hang
  | fuel + 1, i, any, t => do
      let (value, entry) ← fsReaddir t.fs dirIno i true
      if value = 1 then do
        let entry ← fetch entry
        let name ← cText entry.name
        let (_, _, type) ← fsStat t.fs entry.inodeId false true
        let mark := if type = some 2 then ascii "/" else []
        lsEntries dirIno fuel (i + 1) true (t.puts (name ++ mark ++ newline))
      else pure (if any then t else t.puts (ascii "(empty)\r\n"))

def cmdLs (t : Shell σ) (args : List (List UInt8)) : Run (Shell σ) :=
  match args with
  | [] => lsEntries t.cwdIno walkFuel 0 false t
  | path :: _ => do
      let dirIno ← resolvePath t path
      if dirIno = invalidIno then pure (t.puts (ascii "ls: not found\r\n"))
      else lsEntries dirIno walkFuel 0 false t

def cmdCd (t : Shell σ) (args : List (List UInt8)) : Run (Shell σ) :=
  match args with
  | [] => pure (t.puts (ascii "cd: missing path\r\n"))
  | target :: _ => do
      let newIno ← resolvePath t target
      if newIno = invalidIno then pure (t.puts (ascii "cd: not found\r\n"))
      else
        let (_, _, type) ← fsStat t.fs newIno false true
        if type ≠ some 2 then pure (t.puts (ascii "cd: not a directory\r\n"))
        -- the path is kept as it was typed
        else if target.head? = some slash then pure { t with cwdIno := newIno, cwdPath := target }
        else
          let full ← joinCwd t target
          pure { t with cwdIno := newIno, cwdPath := full }

/-- The loop of `cmd_cat`: 127 bytes at a time, shown up to the first NUL of each. -/
def catChunks (ino : Nat) : Nat → Nat → Shell σ → Run (Shell σ)
  | 0, _, _ => throw .hang
  | fuel + 1, offset, t => do
      let (n, data) ← fsRead t.fs ino offset 127 (some 128)
      if n > 0 then do
        let shown ← cText (data ++ [0])
        catChunks ino fuel (offset + n.toNat) (t.puts shown)
      else if n < 0 then pure (t.puts (ascii "cat: read error\r\n"))
      else pure (t.puts newline)

def cmdCat (t : Shell σ) (args : List (List UInt8)) : Run (Shell σ) :=
  match args with
  | [] => pure (t.puts (ascii "cat: missing file\r\n"))
  | file :: _ => do
      let ino ← resolvePath t file
      if ino = invalidIno then pure (t.puts (ascii "cat: not found\r\n"))
      else catChunks ino walkFuel 0 t

/-- `uptime` prints through `shell_print_time`. -/
def cmdTimer (t : Shell σ) (uptime : Nat) : Shell σ :=
  t.puts (ascii "\rUptime: " ++ ascii (toString uptime) ++ newline ++ [10])

def cmdRm (t : Shell σ) (args : List (List UInt8)) : Run (Shell σ) :=
  match args with
  | [] => pure (t.puts (ascii "rm: missing name\r\n"))
  | name :: _ =>
      if name.head? = some slash then pure (t.puts (ascii "rm: use relative names\r\n"))
      else do
        let (value, fs) ← fsUnlink t.fs t.cwdIno (name ++ [0])
        let t := { t with fs := fs }
        pure (if value < 0 then t.puts (ascii "rm: failed (not found or non-empty directory)\r\n") else t)

variable [Backing σ]

/-- What `cmd_mkdir` and `cmd_touch` do, up to the word in their messages and the type. -/
def cmdMake (verb : String) (inodeType : UInt8) (t : Shell σ) (args : List (List UInt8)) :
    Run (Shell σ) :=
  match args with
  | [] => pure (t.puts (ascii (verb ++ ": missing name\r\n")))
  | name :: _ =>
      if name.head? = some slash then pure (t.puts (ascii (verb ++ ": use relative names\r\n")))
      else do
        let (number, fs) ← fsCreate t.fs t.cwdIno (name ++ [0]) inodeType
        let t := { t with fs := fs }
        pure (if number = invalidIno then t.puts (ascii (verb ++ ": failed (name exists or invalid)\r\n"))
          else t)

def cmdMkdir (t : Shell σ) (args : List (List UInt8)) : Run (Shell σ) := cmdMake "mkdir" 2 t args

def cmdTouch (t : Shell σ) (args : List (List UInt8)) : Run (Shell σ) := cmdMake "touch" 1 t args

def cmdWrite (t : Shell σ) (args : List (List UInt8)) : Run (Shell σ) :=
  match args with
  | file :: word :: rest => do
      let ino ← resolvePath t file
      if ino = invalidIno then pure (t.puts (ascii "write: not found\r\n"))
      else
        let text := joinArgs (word :: rest)
        let (value, fs) ← fsWrite t.fs ino 0 text.length (some (text ++ [0]))
        let t := { t with fs := fs }
        pure (if value < 0 then t.puts (ascii "write: failed\r\n") else t)
  | _ => pure (t.puts (ascii "write: usage: write <file> <text>\r\n"))

/-- The command table of `shell_run`. `shutdown` parks the core. -/
def runCommand (banner : List UInt8) (t : Shell σ) (uptime : Nat) (verb : List UInt8)
    (args : List (List UInt8)) : Run (Shell σ) :=
  if seq verb (ascii "help") then pure (cmdHelp t)
  else if seq verb (ascii "ls") then cmdLs t args
  else if seq verb (ascii "pwd") then pure (cmdPwd t)
  else if seq verb (ascii "cd") then cmdCd t args
  else if seq verb (ascii "mkdir") then cmdMkdir t args
  else if seq verb (ascii "touch") then cmdTouch t args
  else if seq verb (ascii "cat") then cmdCat t args
  else if seq verb (ascii "write") then cmdWrite t args
  else if seq verb (ascii "rm") then cmdRm t args
  else if seq verb (ascii "clear") then pure (cmdClear t)
  else if seq verb (ascii "kernel") then pure (t.puts banner)
  else if seq verb (ascii "shutdown") then throw .panic
  else if seq verb (ascii "uptime") then pure (cmdTimer t uptime)
  else pure (t.puts (verb ++ ascii ": command not found\r\n"))

/-- One trip of the loop of `shell_run`, with the line `read_line` returns in it. -/
def shellStep (banner : List UInt8) (t : Shell σ) (typed : Typed) : Run (Unit × Shell σ) := do
  let t := t.puts (t.cwdPath ++ ascii "$ ")
  if typed.line.length = 0 then pure ((), t)
  else
    let args ← lineArgs typed.line
    match args with
    | [] => pure ((), t)
    | verb :: args => do
        let t ← runCommand banner t typed.uptime verb args
        pure ((), t)

/-- `shell_run` before its loop, on an initialized filesystem. -/
def shellStart (banner : List UInt8) (fs : Fs σ) : Shell σ where
  fs := fs
  cwdIno := rootIno
  cwdPath := [slash]
  out := newline ++ banner

end KehindeKernel
