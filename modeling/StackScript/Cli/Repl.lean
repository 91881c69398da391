import StackScript.Cli.Os
import StackScript.Cli.Input

/-! # The prompt

The prompt runs each line of input on one machine, so globals persist from line to line. A
blank line is skipped; a line starting with `:` is a command (`:quit` or `:q`, `:globals`,
`:heap`, `:help`); any other line is compiled under the name `<repl>` and run, and its errors
are reported on the standard error stream without ending the loop. The loop ends at the end of
the input (writing a line feed after the last prompt, when the prompt is not empty), at
`:quit`, or when the input cannot be read.

Through the line editor the prompt also prints a banner and the prompt text, refuses a prompt
text with control or format characters, and keeps a history: the non-blank lines as typed,
without a line repeating the one before, at most 1000, read from the history file at the start
and written back at the end.
-/

namespace StackScript

namespace Cli

/-- The most lines the history keeps. -/
def historyLimit : Nat := 1000

/-- The history with a line added, unless it repeats the last one. -/
def remember (history : List Bytes) (line : Bytes) : List Bytes :=
  if history.getLast? == some line then history
  else
    let h := history ++ [line]
    if h.length > historyLimit then h.drop 1 else h

/-- Reads a history file: its lines, up to the first one that is too long for the line
editor's buffer or not UTF-8. -/
def readHistory (data : Bytes) : List Bytes :=
  let raw := data.splitOn 10
  let lines := if data.getLast? == some 10 then raw.dropLast.map (·, true)
    else (raw.dropLast.map (·, true)) ++ (if raw.getLastD [] == [] then [] else [(raw.getLastD [], false)])
  let usable := lines.takeWhile fun (l, _) => l.length < editorBuffer
  let texts := usable.map fun (l, ended) => if ended then dropLineEnd (l ++ [10]) else l
  (texts.takeWhile Bytes.isUtf8).foldl (fun h l =>
    let h := h ++ [l]
    if h.length > historyLimit then h.drop 1 else h) []

/-- A history file's text. -/
def writeHistory (history : List Bytes) : Bytes := (history.map (· ++ [10])).flatten

/-- Whether a character is a control, format or private-use character. -/
def isOther (c : Char) : Bool :=
  let n := c.toNat
  n < 0x20 || (0x7F ≤ n && n ≤ 0x9F) || n == 0xAD || (0x600 ≤ n && n ≤ 0x605) || n == 0x61C ||
  n == 0x6DD || n == 0x70F || n == 0x890 || n == 0x891 || n == 0x8E2 || n == 0x180E ||
  (0x200B ≤ n && n ≤ 0x200F) || (0x202A ≤ n && n ≤ 0x202E) || (0x2060 ≤ n && n ≤ 0x2064) ||
  (0x2066 ≤ n && n ≤ 0x206F) || n == 0xFEFF || (0xFFF9 ≤ n && n ≤ 0xFFFB) || n == 0x110BD ||
  n == 0x110CD || (0x13430 ≤ n && n ≤ 0x1343F) || (0x1BCA0 ≤ n && n ≤ 0x1BCA3) ||
  (0x1D173 ≤ n && n ≤ 0x1D17A) || n == 0xE0001 || (0xE0020 ≤ n && n ≤ 0xE007F) ||
  (0xE000 ≤ n && n ≤ 0xF8FF) || (0xF0000 ≤ n && n ≤ 0xFFFFD) || (0x100000 ≤ n && n ≤ 0x10FFFD)

/-- The banner the line editor prints first. -/
def banner : String := "Azura dev. Type :help for commands.\n"

/-- The help text. -/
def helpText : String :=
  ":globals  list global variables\n" ++
  ":heap     show interned strings and heap objects\n" ++
  ":quit     leave the prompt\n"

/-- What a command prints, and whether it ends the prompt. -/
def command (mach : Machine) (cmd : Bytes) : Bytes × Bool :=
  let word := lowerCommand cmd
  if word == Bytes.ofString ":quit" || word == Bytes.ofString ":q" then ([], true)
  else if word == Bytes.ofString ":globals" then
    ((mach.globalList.map fun (k, v) => k.chars ++ Bytes.ofString " = " ++ v.text ++ [10]).flatten, false)
  else if word == Bytes.ofString ":heap" then
    (Bytes.ofString ("strings: " ++ toString mach.heap.stringCount ++ ", objects: " ++
      toString mach.heap.objects.size ++ "\n"), false)
  else if word == Bytes.ofString ":help" then (Bytes.ofString helpText, false)
  else (Bytes.ofString "unknown command. Type :help for commands.\n", false)

/-- Compiles a line and runs it; an error is reported on the standard error stream. -/
def evaluate (mach : Machine) (line : Bytes) : Machine × Bytes :=
  match mach.compile "<repl>" line with
  | (mach, .error e) => (mach, e.message ++ [10])
  | (mach, .ok c) =>
    match mach.run c with
    | (mach, some f) => (mach, f.report ++ [10])
    | (mach, none) => (mach, [])

/-- The state of the prompt: the machine, the history, and the pieces of a line the editor
has still to hand over. -/
structure Prompter where
  machine : Machine
  history : List Bytes := []
  pending : List Bytes := []

section Loop

variable {m : Type → Type} [Monad m]

/-- The next line the prompt gets, with the pieces left after it; none at the end of input,
an error for a line the scanner cannot take. -/
def nextLine (os : Os m) : List Bytes → m (Except String (Option (Bytes × List Bytes)))
  | p :: ps => pure (.ok (some (p, ps)))
  | [] => do
    match ← os.line with
    | none => pure (.ok none)
    | some (raw, ended) =>
      if os.editor then
        match editorPieces raw ended with
        | p :: ps => pure (.ok (some (p, ps)))
        | [] => pure (.ok none)
      else
        match scannerLine raw with
        | some l => pure (.ok (some (l, [])))
        | none => pure (.error "bufio.Scanner: token too long")

/-- Runs the prompt until its input ends or it is left, for at most `fuel` lines; answers
the state and the exit status. -/
def prompterLoop (os : Os m) (prompt : String) : Nat → Prompter → m (Prompter × Nat)
  | 0, p => pure (p, 0)
  | fuel + 1, p => do
    if prompt.toList.any isOther then
      os.say "azura: invalid prompt"
      return (p, 74)
    os.out (Bytes.ofString prompt)
    match ← nextLine os p.pending with
    | .error e =>
      os.say ("azura: " ++ e)
      pure (p, 74)
    | .ok none =>
      if !prompt.isEmpty then os.out [10]
      pure (p, 0)
    | .ok (some (line, rest)) =>
      let p := { p with pending := rest }
      let code := Bytes.trimSpace line
      if code.isEmpty then prompterLoop os prompt fuel p
      else
        let p := if os.editor then { p with history := remember p.history line } else p
        if code.head? == some 58 then
          let (text, quit) := command p.machine code
          if !text.isEmpty then os.out text
          if quit then pure (p, 0) else prompterLoop os prompt fuel p
        else
          let (mach, problem) := evaluate p.machine line
          let mach ← os.flush mach
          if !problem.isEmpty then os.err problem
          prompterLoop os prompt fuel { p with machine := mach }

/-- Runs the prompt on a machine for at most `fuel` lines; answers the machine and the exit
status. -/
def prompt (os : Os m) (cfg : Config) (fuel : Nat) (mach : Machine) : m (Machine × Nat) := do
  if !os.editor then
    let (p, code) ← prompterLoop os "" fuel { machine := mach }
    return (p.machine, code)
  let path := cfg.historyPath os.home
  let history ← if path.isEmpty then pure [] else do
    match ← os.read path with
    | .ok data => pure (readHistory data)
    | .error _ => pure []
  os.out (Bytes.ofString banner)
  let (p, code) ← prompterLoop os cfg.prompt fuel { machine := mach, history }
  if !path.isEmpty then
    let _ ← os.write path (writeHistory p.history)
  pure (p.machine, code)

end Loop

end Cli

end StackScript
