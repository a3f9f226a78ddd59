import KehindeKernel.DiskBudget
import KehindeKernel.ShellPaths
import KehindeKernel.Tokens

/-!
What the shell is for: a desk with a disk, the path it is at and a screen. Lines
are taken apart into words, paths are looked up from the root, and a command is
what it does to these three. There are no inodes in memory, no buffers and no
loops over blocks here; the shell of `shell.cpp` is shown to be this desk.
-/

namespace KehindeKernel

open Outcome DirectoryTree Words

/-- The path of `arg` seen from `cwd`. -/
def absolutePath (cwd arg : List UInt8) : List UInt8 :=
  if arg.head? = some slash then arg
  else if cwd.getLast? ≠ some slash then cwd ++ slash :: arg
  else cwd ++ arg

namespace Disk

/-- Where a path leads from the root. The seventeenth component and what follows
does not count. -/
def lookup (d : Disk) (path : List UInt8) : Nat :=
  if path = [] then invalidIno
  else if path = [slash] then rootIno
  else (walk d.catalog.dirs rootIno ((components path).take 16)).getD invalidIno

def IsDir (d : Disk) (ino : Nat) : Prop := (d.catalog.dirs ino).isSome = true

instance (d : Disk) (ino : Nat) : Decidable (d.IsDir ino) := inferInstanceAs (Decidable (_ = true))

/-- How `ls` shows an entry. -/
def entryLine (d : Disk) (e : Entry) : List UInt8 :=
  e.1 ++ (if d.IsDir e.2 then ascii "/" else []) ++ newline

def listing (d : Disk) (ino : Nat) : List UInt8 :=
  match (d.catalog.dirs ino).getD [] with
  | [] => ascii "(empty)\r\n"
  | l => l.flatMap d.entryLine

/-- What `cat` sends for an object. -/
def shown (d : Disk) (ino : Nat) : List UInt8 :=
  match d.files ino with
  | none => ascii "cat: read error\r\n"
  | some c => c ++ newline

end Disk

structure Desk where
  volume : Volume
  cwd : List UInt8
  out : List UInt8

namespace Desk

def puts (k : Desk) (bytes : List UInt8) : Desk := { k with out := k.out ++ bytes }

def disk (k : Desk) : Disk := k.volume.disk

/-- The object a path typed at the desk leads to. -/
def find (k : Desk) (arg : List UInt8) : Nat := k.disk.lookup (absolutePath k.cwd arg)

/-- The directory the desk is at. -/
def here (k : Desk) : Nat := k.disk.lookup k.cwd

/-- The desk over a new volume, and a message if the call that made it failed. -/
def after (k : Desk) (volume : Volume) (failed : Prop) [Decidable failed] (message : List UInt8) : Desk :=
  let k := { k with volume := volume }
  if failed then k.puts message else k

def ls (k : Desk) : List (List UInt8) → Desk
  | [] => k.puts (k.disk.listing k.here)
  | path :: _ =>
      if k.find path = invalidIno then k.puts (ascii "ls: not found\r\n")
      else k.puts (k.disk.listing (k.find path))

def cd (k : Desk) : List (List UInt8) → Desk
  | [] => k.puts (ascii "cd: missing path\r\n")
  | target :: _ =>
      if k.find target = invalidIno then k.puts (ascii "cd: not found\r\n")
      else if k.disk.IsDir (k.find target) then { k with cwd := absolutePath k.cwd target }
      else k.puts (ascii "cd: not a directory\r\n")

def cat (k : Desk) : List (List UInt8) → Desk
  | [] => k.puts (ascii "cat: missing file\r\n")
  | file :: _ =>
      if k.find file = invalidIno then k.puts (ascii "cat: not found\r\n")
      else k.puts (k.disk.shown (k.find file))

def make (verb : String) (inodeType : UInt8) (k : Desk) : List (List UInt8) → Run Desk
  | [] => pure (k.puts (ascii (verb ++ ": missing name\r\n")))
  | name :: _ =>
      if name.head? = some slash then pure (k.puts (ascii (verb ++ ": use relative names\r\n")))
      else do
        let (number, volume) ← k.volume.create k.here name inodeType
        pure (k.after volume (number = invalidIno) (ascii (verb ++ ": failed (name exists or invalid)\r\n")))

def write (k : Desk) : List (List UInt8) → Run Desk
  | file :: word :: rest =>
      if k.find file = invalidIno then pure (k.puts (ascii "write: not found\r\n"))
      else do
        let (value, volume) ← k.volume.write (k.find file) 0 ([space].intercalate (word :: rest))
        pure (k.after volume (value < 0) (ascii "write: failed\r\n"))
  | _ => pure (k.puts (ascii "write: usage: write <file> <text>\r\n"))

def rm (k : Desk) : List (List UInt8) → Desk
  | [] => k.puts (ascii "rm: missing name\r\n")
  | name :: _ =>
      if name.head? = some slash then k.puts (ascii "rm: use relative names\r\n")
      else
        let (value, volume) := k.volume.unlink k.here name
        k.after volume (value < 0) (ascii "rm: failed (not found or non-empty directory)\r\n")

/-- The commands as `help` lists them. -/
def commands : List (String × String) := [
  ("ls [path]", "list directory"),
  ("pwd", "print working directory"),
  ("cd <path>", "change directory"),
  ("mkdir <name>", "create directory"),
  ("touch <name>", "create empty file"),
  ("write <file> <text>", "write text to file"),
  ("cat <file>", "print file contents"),
  ("rm <name>", "remove file or empty directory"),
  ("clear", "clear the screen"),
  ("kernel", "show kernel info"),
  ("uptime", "print the uptime of the kernel"),
  ("shutdown", "halt the system"),
  ("help", "show this message")]

/-- A table of two columns. -/
def helpText : List UInt8 :=
  ascii "Commands:\r\n" ++ commands.flatMap fun c =>
    ascii "  " ++ (ascii c.1 ++ List.replicate (23 - c.1.length) space) ++ ascii c.2 ++ newline

def run (banner : List UInt8) (k : Desk) (uptime : Nat) (verb : List UInt8) (args : List (List UInt8)) :
    Run Desk :=
  if verb = ascii "help" then pure (k.puts helpText)
  else if verb = ascii "ls" then pure (k.ls args)
  else if verb = ascii "pwd" then pure (k.puts (k.cwd ++ newline))
  else if verb = ascii "cd" then pure (k.cd args)
  else if verb = ascii "mkdir" then k.make "mkdir" 2 args
  else if verb = ascii "touch" then k.make "touch" 1 args
  else if verb = ascii "cat" then pure (k.cat args)
  else if verb = ascii "write" then k.write args
  else if verb = ascii "rm" then pure (k.rm args)
  else if verb = ascii "clear" then pure (k.puts (ascii "\x1b[2J\x1b[H"))
  else if verb = ascii "kernel" then pure (k.puts banner)
  else if verb = ascii "shutdown" then throw .panic
  else if verb = ascii "uptime" then
    pure (k.puts (ascii "\rUptime: " ++ ascii (toString uptime) ++ newline ++ [10]))
  else pure (k.puts (verb ++ ascii ": command not found\r\n"))

/-- A path that the command looks up fits in `MAX_PATH` bytes. -/
def Fits (k : Desk) (verb : List UInt8) (args : List (List UInt8)) : Prop :=
  ∀ arg ∈ resolvedArg verb args, FitsPath (absolutePath k.cwd arg)

instance (k : Desk) (verb : List UInt8) (args : List (List UInt8)) : Decidable (k.Fits verb args) :=
  inferInstanceAs (Decidable (∀ arg ∈ resolvedArg verb args, (absolutePath k.cwd arg).length + 1 ≤ maxPath))

/-- What a line does at the desk. Nothing is said of paths that are too long. -/
def dispatch (banner : List UInt8) (k : Desk) (typed : Typed) : Run Desk :=
  match (words space typed.line).take maxArgs with
  | [] => pure k
  | verb :: args => if k.Fits verb args then k.run banner typed.uptime verb args else throw .fault

def prompt (k : Desk) : List UInt8 := k.cwd ++ ascii "$ "

/-- One line at the desk, behind its prompt. -/
def step (banner : List UInt8) (k : Desk) (typed : Typed) : Run (Unit × Desk) := do
  let k ← (k.puts k.prompt).dispatch banner typed
  pure ((), k)

/-- A desk over a volume, at its root. -/
def start (banner : List UInt8) (volume : Volume) : Desk where
  volume := volume
  cwd := [slash]
  out := newline ++ banner

end Desk

end KehindeKernel
