import StackScript.Toml.Document
import StackScript.Path

/-! # Configuration

The settings a configuration file gives: whether to print compiled code, the machine's stack
limit, instruction limit and tracing, the log's verbosity and file, and the prompt's history
file and prompt text. A file is read on top of the defaults. Sections and keys are matched by
name, exactly or else ignoring case; a value of the wrong type is an error, and so is any key
of the file that no setting took, listed in the order the file has them. The stack limit must
then be positive and the instruction limit not negative.
-/

namespace StackScript

/-- The settings of the interpreter and its prompt. -/
structure Config where
  printCode : Bool
  stackMax : Int
  instructionLimit : Int
  traceExecution : Bool
  verbosity : Int
  logFile : String
  history : String
  prompt : String
  dir : String

/-- Why a configuration file was refused. -/
inductive ConfigError where
  | unreadable (error : Toml.ParseError)
  | mismatch (detail : String)
  | unknownKeys (keys : List String)
  | invalid (detail : String)

namespace ConfigError

/-- The message of a configuration error. -/
def message : ConfigError → String
  | .unreadable e => e.text
  | .mismatch d => d
  | .unknownKeys ks => "unknown keys: " ++ ", ".intercalate ks
  | .invalid d => d

end ConfigError

namespace Config

open Toml

/-- The settings used when there is no file. -/
def default : Config := ⟨false, 256, 0, false, 0, "", ".azura_history", "> ", ""⟩

/-- The name of the type a node is held as, as errors show it. -/
def typeName : Node → String
  | .string _ => "string"
  | .integer _ => "int64"
  | .float _ => "float64"
  | .boolean _ => "bool"
  | .datetime _ => "time.Time"
  | .list _ => "[]interface \x7b\x7d"
  | .table _ => "map[string]interface \x7b\x7d"
  | .tables _ => "[]map[string]interface \x7b\x7d"

/-- The error for a value of the wrong type. -/
def wrongType (n : Node) (want : String) : String :=
  "incompatible types: TOML value has type " ++ typeName n ++ "; destination has type " ++ want

/-- A setter for a boolean setting. -/
def flagSetting (set : Config → Bool → Config) (c : Config) : Node → Except String Config
  | .boolean b => pure (set c b)
  | n => .error (wrongType n "boolean")

/-- A setter for an integer setting. -/
def intSetting (set : Config → Int → Config) (c : Config) : Node → Except String Config
  | .integer i => pure (set c i)
  | n => .error (wrongType n "integer")

/-- A setter for a text setting. -/
def textSetting (set : Config → String → Config) (c : Config) : Node → Except String Config
  | .string s => pure (set c s)
  | n => .error (wrongType n "string")

/-- The sections of a file, with the name of the record each fills and its settings by
name. -/
def sections : List (String × String × List (String × (Config → Node → Except String Config))) :=
  [("compiler", "config.Compiler", [("print-code", flagSetting fun c b => { c with printCode := b })]),
   ("vm", "config.VM", [("stack-max", intSetting fun c i => { c with stackMax := i }),
           ("instruction-limit", intSetting fun c i => { c with instructionLimit := i }),
           ("trace-execution", flagSetting fun c b => { c with traceExecution := b })]),
   ("log", "config.Log", [("verbosity", intSetting fun c i => { c with verbosity := i }),
            ("file", textSetting fun c s => { c with logFile := s })]),
   ("repl", "config.REPL", [("history", textSetting fun c s => { c with history := s }),
             ("prompt", textSetting fun c s => { c with prompt := s })])]

/-- Whether two characters are equal when case is ignored, with the Kelvin sign as `k` and the
long s as `s`. -/
def sameLetter (a b : Char) : Bool :=
  let fold (c : Char) : Char :=
    if c.toNat == 0x212A then 'k' else if c.toNat == 0x17F then 's' else c.toLower
  fold a == fold b

/-- Whether two names are equal when case is ignored. -/
def sameName (a b : String) : Bool :=
  a.length == b.length && (a.toList.zip b.toList).all fun (x, y) => sameLetter x y

/-- The entry of a list named by a key: the exact name first, else one equal ignoring case. -/
def lookupName {α : Type} (xs : List (String × α)) (key : String) : Option α :=
  match xs.find? (·.1 == key) with
  | some (_, a) => some a
  | none => (xs.find? (sameName key ·.1)).map (·.2)

/-- Reads a section's entries into the settings, recording the keys it takes; an error names
the key it is at. -/
def readSection (title : String) (fields : List (String × (Config → Node → Except String Config))) :
    Config × List Key → Entries → Except (Key × String) (Config × List Key)
  | acc, [] => pure acc
  | (c, taken), (k, n) :: rest =>
    match lookupName fields k with
    | some set =>
      match set c n with
      | .ok c => readSection title fields (c, [title, k] :: taken) rest
      | .error e => .error ([title, k], e)
    | none => readSection title fields (c, taken) rest

/-- Reads a document's tables into the settings, recording the keys taken; an error names the
key it is at. -/
def readRoot : Config × List Key → Entries → Except (Key × String) (Config × List Key)
  | acc, [] => pure acc
  | (c, taken), (k, n) :: rest =>
    match lookupName sections k with
    | some (record, fields) =>
      match n with
      | .table es => do
        let acc ← readSection k fields (c, [k] :: taken) es
        readRoot acc rest
      | n => .error ([k], "type mismatch for " ++ record ++ ": expected table but found " ++ typeName n)
    | none => readRoot (c, taken) rest

/-- The text of an error reading a document's values: the line where the key it is at was
defined, when it was, and the key. -/
def mismatchText (doc : Document) (key : Key) (message : String) : String :=
  let line := doc.lineOf key
  "toml: " ++ (if line == 0 then "" else "line " ++ toString line ++ " ") ++
    "(last key " ++ Bytes.quote (Bytes.ofString (keyText key)) ++ "): " ++ message

/-- Checks the limits. -/
def validate (c : Config) : Except ConfigError Config :=
  if c.stackMax < 1 then .error (.invalid ("vm.stack-max must be positive, got " ++ toString c.stackMax))
  else if c.instructionLimit < 0 then
    .error (.invalid ("vm.instruction-limit must not be negative, got " ++ toString c.instructionLimit))
  else pure c

/-- Reads the text of a configuration file on top of the defaults. -/
def parse (text : Bytes) : Except ConfigError Config :=
  match Document.parse text with
  | .error e => .error (.unreadable e)
  | .ok doc =>
    match readRoot (default, []) doc.root with
    | .error (key, e) => .error (.mismatch (mismatchText doc key e))
    | .ok (c, taken) =>
      let unknown := doc.ordered.filter fun k => !taken.contains k
      if !unknown.isEmpty then .error (.unknownKeys (unknown.map keyText))
      else validate c

/-- The log file: none for the standard error; a relative file is taken from the directory of
the configuration file, when there is one. -/
def logPath (c : Config) : Option String :=
  if c.logFile.isEmpty then none
  else if !Path.isAbs c.logFile && !c.dir.isEmpty then some (Path.join c.dir c.logFile)
  else some c.logFile

/-- The history file: empty for none; a relative file is taken from the home directory, and
there is none without a home directory. -/
def historyPath (c : Config) (home : Option String) : String :=
  if c.history.isEmpty || Path.isAbs c.history then c.history
  else match home with
    | some h => Path.join h c.history
    | none => ""

end Config

end StackScript
