import StackScript.Cli.Command

/-! # A modelled system

A pure model of the system the command runs on: files by absolute path, the directories that
exist, standard input as bytes not yet read, and what the command wrote to its two output
streams. `/dev/null` reads as empty and takes any write. Reading a directory fails with `is a
directory`, and so does opening one for writing; a missing file, or a file in a missing
directory, fails with `no such file or directory`.
-/

namespace StackScript

namespace Cli

/-- A modelled system. -/
structure World where
  workDir : String
  home : Option String
  editor : Bool
  files : List (String × Bytes)
  dirs : List String
  input : Bytes
  /-- What was written to the standard output, latest first. -/
  out : List Bytes := []
  /-- What was written to the standard error, latest first. -/
  err : List Bytes := []

/-- The device that reads as empty and discards what is written. -/
def nullDevice : String := "/dev/null"

namespace World

/-- The directories above a directory, itself included, `fuel` bounding their number. -/
def ancestors : Nat → String → List String
  | 0, _ => []
  | fuel + 1, d => if Path.dir d == d then [d] else d :: ancestors fuel (Path.dir d)

/-- A system whose working directory, and every directory above it, exist, along with `/dev`;
the files are given by their names in the working directory. -/
def make (workDir : String) (home : Option String) (editor : Bool)
    (files : List (String × Bytes)) (input : Bytes) : World :=
  { workDir, home, editor, input,
    files := files.map fun (n, b) => (Path.join workDir n, b),
    dirs := "/dev" :: ancestors (workDir.length + 1) workDir }

/-- The contents of the file at a path. -/
def fileAt (w : World) (p : String) : Option Bytes := (w.files.find? (·.1 == p)).map (·.2)

/-- The world with a file's contents set. -/
def setFile (w : World) (p : String) (b : Bytes) : World :=
  if w.files.any (·.1 == p) then { w with files := w.files.map fun (q, c) => if q == p then (q, b) else (q, c) }
  else { w with files := w.files ++ [(p, b)] }

/-- Reads a file. -/
def read (p : String) : StateM World (Except String Bytes) := do
  let w ← get
  let abs := absolute w.workDir p
  if abs == nullDevice then return .ok []
  match w.fileAt abs with
  | some b => pure (.ok b)
  | none =>
    if w.dirs.contains abs then pure (.error ("read " ++ p ++ ": is a directory"))
    else pure (.error ("open " ++ p ++ ": no such file or directory"))

/-- Creates or truncates a file and writes it. -/
def write (p : String) (b : Bytes) : StateM World (Except String Unit) := do
  let w ← get
  let abs := absolute w.workDir p
  if abs == nullDevice then return .ok ()
  if w.dirs.contains abs then return .error ("open " ++ p ++ ": is a directory")
  if !w.dirs.contains (Path.dir abs) then return .error ("open " ++ p ++ ": no such file or directory")
  set (w.setFile abs b)
  pure (.ok ())

/-- Opens a file for appending, creating it when it is missing. -/
def touch (p : String) : StateM World Unit := do
  let w ← get
  let abs := absolute w.workDir p
  if abs == nullDevice || w.dirs.contains abs || !w.dirs.contains (Path.dir abs) then return
  if (w.fileAt abs).isNone then set (w.setFile abs [])

/-- Whether a file or directory exists. -/
def present (p : String) : StateM World Bool := do
  let w ← get
  let abs := absolute w.workDir p
  pure (abs == nullDevice || w.dirs.contains abs || (w.fileAt abs).isSome)

/-- Takes the next line of standard input. -/
def takeLine : StateM World (Option (Bytes × Bool)) := do
  let w ← get
  if w.input.isEmpty then return none
  match w.input.idxOf? 10 with
  | some i =>
    set { w with input := w.input.drop (i + 1) }
    pure (some (w.input.take i, true))
  | none =>
    set { w with input := [] }
    pure (some (w.input, false))

/-- Takes some bytes of standard input. -/
def takeBytes (n : Nat) : StateM World (Option Bytes) := do
  let w ← get
  if w.input.isEmpty then return none
  set { w with input := w.input.drop n }
  pure (some (w.input.take n))

/-- The system as the command sees it. -/
def os (w : World) : Os (StateM World) where
  workDir := w.workDir
  home := w.home
  editor := w.editor
  read := read
  write := write
  touch := touch
  present := present
  line := takeLine
  bytes := takeBytes
  out := fun b => modify fun w => { w with out := b :: w.out }
  err := fun b => modify fun w => { w with err := b :: w.err }

/-- Runs the command on a command line in this world; answers the exit status and the world
after it. The prompt and the server read at most as many pieces as the input has bytes, and
one more for its end. -/
def runCommand (w : World) (args : List String) : Nat × World :=
  (Cli.run w.os (w.input.length + 2) args).run w

/-- Everything written to the standard output. -/
def stdout (w : World) : Bytes := w.out.reverse.flatten

/-- Everything written to the standard error. -/
def stderr (w : World) : Bytes := w.err.reverse.flatten

end World

end Cli

end StackScript
