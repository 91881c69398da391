import StackScript.Machine.Program
import StackScript.Config

/-! # The operating system of the command

The command reaches the world through a record of operations over a monad: reading and writing
files by path, asking whether a path exists, opening a log file, reading standard input by
lines or by count, and writing to the standard output and error streams. The same command
then runs in `IO` and in a state monad over a modelled file system.

File errors are the texts the system gives, such as `open m.az: no such file or directory`.

This module also finds and reads the configuration: the file a flag names, or else the first
`azura.toml` in the working directory or one of the directories above it.
-/

namespace StackScript

namespace Cli

/-- The operating system as the command sees it. -/
structure Os (m : Type → Type) where
  /-- The working directory, an absolute path. -/
  workDir : String
  /-- The home directory, when there is one. -/
  home : Option String
  /-- Whether standard input is the terminal's own stream, which the prompt reads through
  its line editor; otherwise it reads through a plain scanner. -/
  editor : Bool
  read : String → m (Except String Bytes)
  write : String → Bytes → m (Except String Unit)
  /-- Opens a file for appending, creating it when it is missing; a failure is ignored. -/
  touch : String → m Unit
  /-- Whether a file or directory exists at a path. -/
  present : String → m Bool
  /-- The next line of standard input without its line feed, and whether a line feed ended
  it; none at the end of the input. -/
  line : m (Option (Bytes × Bool))
  /-- The next bytes of standard input, as many as asked for or fewer at its end; none once
  it has ended. -/
  bytes : Nat → m (Option Bytes)
  out : Bytes → m Unit
  err : Bytes → m Unit

/-- The name of the configuration file. -/
def configName : String := "azura.toml"

/-- A path made absolute against the working directory. -/
def absolute (workDir p : String) : String :=
  if Path.isAbs p then Path.clean p else Path.join workDir p

section Run

variable {m : Type → Type} [Monad m]

/-- Writes a line of text to the standard error stream. -/
def Os.say (os : Os m) (s : String) : m Unit := os.err (Bytes.ofString (s ++ "\n"))

/-- Writes what a machine recorded: its output to the standard output, its trace and listings
to the standard error. -/
def Os.flush (os : Os m) (mach : Machine) : m Machine := do
  let (log, mach) := mach.drain
  let out := log.toList.filterMap fun | .output b => some b | _ => none
  let err := log.toList.filterMap fun
    | .trace t => some t.render
    | .listing b => some b
    | .output _ => none
  if !out.isEmpty then os.out out.flatten
  if !err.isEmpty then os.err err.flatten
  pure mach

/-- Reads a configuration file; its directory becomes the configuration's. -/
def loadConfig (os : Os m) (path : String) : m (Except String Config) := do
  match ← os.read path with
  | .error e => pure (.error ("cannot read " ++ path ++ ": " ++ e))
  | .ok data =>
    match Config.parse data with
    | .error e => pure (.error ("parse error in " ++ path ++ ": " ++ e.message))
    | .ok c => pure (.ok { c with dir := absolute os.workDir (Path.dir path) })

/-- Looks for the configuration file in a directory and the ones above it, `fuel` bounding the
directories visited. -/
def findConfig (os : Os m) : Nat → String → m (Except String (Option Config))
  | 0, _ => pure (.ok none)
  | fuel + 1, dir => do
    let path := Path.join dir configName
    if ← os.present path then
      match ← loadConfig os path with
      | .ok c => pure (.ok (some c))
      | .error e => pure (.error e)
    else
      let parent := Path.dir dir
      if parent == dir then pure (.ok none) else findConfig os fuel parent

/-- The configuration the command uses: from the file the flag names, else the one found
above the working directory, else the defaults. -/
def settings (os : Os m) (configPath : String) : m (Except String Config) := do
  if !configPath.isEmpty then loadConfig os configPath
  else
    let start := Path.clean os.workDir
    match ← findConfig os ((start.splitOn "/").length + 1) start with
    | .ok c => pure (.ok (c.getD Config.default))
    | .error e => pure (.error e)

end Run

end Cli

end StackScript
