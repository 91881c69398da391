import StackScript.Cli.Flags
import StackScript.Cli.Repl
import StackScript.Bytecode.Codec
import StackScript.Lsp.Serve

/-! # The command

`azura [flags] [file]` runs a script, compiles it to an encoded chunk (`-o`), lists its code
(`-disasm`), serves editors (`-lsp`), or, without a file, starts the prompt. A file whose
extension is `.azc` in any case holds an encoded chunk; any other file holds source.

The flags `-trace`, `-limit` and `-v`, when given, override the configuration. The exit status
follows the system's conventions: 0 for success, 64 for a usage or configuration error, 65 for
a compile error, 70 for a runtime error and 74 for an input or output error. A compile error
prints its diagnostics and a runtime error its report, on the standard error stream; other
errors print `azura: ` and their message there.
-/

namespace StackScript

namespace Cli

/-- Exit statuses. -/
def exitOk : Nat := 0
def exitUsage : Nat := 64
def exitCompile : Nat := 65
def exitRuntime : Nat := 70
def exitIo : Nat := 74

/-- Whether a path names an encoded chunk. -/
def isChunkPath (path : String) : Bool := (Path.ext path).toLower == ".azc"

/-- The configuration with the flags that override it. -/
def override (o : Options) (c : Config) : Config :=
  let c := if o.given.contains "trace" then { c with traceExecution := o.trace } else c
  let c := if o.given.contains "limit" then { c with instructionLimit := o.limit } else c
  if o.given.contains "v" then { c with verbosity := o.verbosity } else c

/-- A machine set up as the configuration says. -/
def machineFor (c : Config) : Machine :=
  { (Machine.new.setStackMax c.stackMax).setLimit c.instructionLimit with
    tracing := c.traceExecution, printCode := c.printCode }

/-- Whether the log writes anywhere at this verbosity. -/
def logs (c : Config) : Bool := c.verbosity > -5

section Run

variable {m : Type → Type} [Monad m]

/-- The exit status for a compile error, printing it. -/
def compileFailed (os : Os m) (e : CompileFailure) : m Nat := do
  os.err (e.message ++ [10])
  pure exitCompile

/-- The exit status for a runtime error, printing its report. -/
def runFailed (os : Os m) (f : Fault) : m Nat := do
  os.err (f.report ++ [10])
  pure exitRuntime

/-- Reads the file a command works on. -/
def readScript (os : Os m) (path : String) : m (Except Nat Bytes) := do
  match ← os.read path with
  | .ok data => pure (.ok data)
  | .error e =>
    os.say ("azura: cannot read " ++ path ++ ": " ++ e)
    pure (.error exitIo)

/-- Loads an encoded chunk into a machine. -/
def loadChunk (os : Os m) (mach : Machine) (path : String) (data : Bytes) :
    m (Except Nat (Machine × Chunk)) := do
  match Chunk.load data (some mach.heap) with
  | (heap, .ok c) => pure (.ok ({ mach with heap := heap.getD mach.heap }, c))
  | (_, .error e) =>
    os.say ("azura: " ++ path ++ ": " ++ e.message)
    pure (.error exitIo)

/-- Runs a script file. -/
def runFile (os : Os m) (mach : Machine) (path : String) : m Nat := do
  match ← readScript os path with
  | .error code => pure code
  | .ok data =>
    let loaded ← if isChunkPath path then loadChunk os mach path data
      else match mach.compile path data with
        | (mach, .ok c) => do pure (.ok (← os.flush mach, c))
        | (mach, .error e) => do
          let _ ← os.flush mach
          pure (.error (← compileFailed os e))
    match loaded with
    | .error code => pure code
    | .ok (mach, c) =>
      let (mach, r) := mach.run c
      let _ ← os.flush mach
      match r with
      | some f => runFailed os f
      | none => pure exitOk

/-- Compiles a script file to an encoded chunk at `output`. -/
def compileFile (os : Os m) (mach : Machine) (path output : String) : m Nat := do
  match ← readScript os path with
  | .error code => pure code
  | .ok data =>
    let (mach, r) := mach.compile path data
    let _ ← os.flush mach
    match r with
    | .error e => compileFailed os e
    | .ok c =>
      match c.store with
      | .error e =>
        os.say ("azura: " ++ e)
        pure exitIo
      | .ok encoded =>
        match ← os.write output encoded with
        | .ok () => pure exitOk
        | .error e =>
          os.say ("azura: cannot write " ++ output ++ ": " ++ e)
          pure exitIo

/-- Lists a script file's code on the standard output. -/
def disassembleFile (os : Os m) (mach : Machine) (path : String) : m Nat := do
  match ← readScript os path with
  | .error code => pure code
  | .ok data =>
    if isChunkPath path then
      match ← loadChunk os mach path data with
      | .error code => pure code
      | .ok (_, c) =>
        let (text, problem) := Listing.chunkSection c "" false
        os.out text
        match problem with
        | some e =>
          os.say ("azura: " ++ e)
          pure exitIo
        | none => pure exitOk
    else
      let (_, text, r) := mach.disassemble path data
      if !text.isEmpty then os.out text
      match r with
      | some (.error e) => compileFailed os e
      | some (.ok e) =>
        os.say ("azura: " ++ e)
        pure exitIo
      | none => pure exitOk

/-- What a command line comes to once its flags and configuration are read. -/
inductive Plan where
  /-- The command has ended with this status (its messages are written). -/
  | finish (code : Nat)
  /-- The language server is to run. -/
  | serve
  /-- A script or the prompt is to run with these options and settings. -/
  | work (o : Options) (cfg : Config)

/-- Reads a command line and the configuration, and opens the log file. -/
def plan (os : Os m) (args : List String) : m Plan := do
  match parseArgs args with
  | .help =>
    os.err (Bytes.ofString usage)
    pure (.finish exitOk)
  | .refused msg =>
    if !msg.isEmpty then os.say msg
    os.err (Bytes.ofString usage)
    pure (.finish exitUsage)
  | .ok o =>
    match ← settings os o.configPath with
    | .error e =>
      os.say ("azura: " ++ e)
      pure (.finish exitUsage)
    | .ok cfg =>
      let cfg := override o cfg
      if logs cfg then
        match cfg.logPath with
        | some p => os.touch p
        | none => pure ()
      pure (if o.serve then .serve else .work o cfg)

/-- Runs a script, or the prompt for at most `fuel` lines. -/
def work (os : Os m) (fuel : Nat) (o : Options) (cfg : Config) : m Nat := do
  let mach := machineFor cfg
  if o.file.isEmpty then
    if !o.output.isEmpty || o.disasm then
      os.say "azura: -o and -disasm need a script"
      return exitUsage
    let (_, code) ← prompt os cfg fuel mach
    pure code
  else if !o.output.isEmpty then compileFile os mach o.file o.output
  else if o.disasm then disassembleFile os mach o.file
  else runFile os mach o.file

/-- Runs the command on a command line. The prompt reads at most `fuel` lines and the server
at most `fuel` pieces of input. -/
def run (os : Os m) (fuel : Nat) (args : List String) : m Nat := do
  match ← plan os args with
  | .finish code => pure code
  | .serve =>
    Lsp.serve os fuel {}
    pure exitOk
  | .work o cfg => work os fuel o cfg

end Run

end Cli

end StackScript
