import StackScript.Text.Bytes

/-! # Command-line flags

The command takes `-config path`, `-disasm`, `-trace`, `-limit n`, `-o path`, `-lsp` and `-v n`,
then at most one file. A flag is written with one dash or two, and its value either after `=`
or, for a flag that is not boolean, as the next argument; a boolean flag given without a value
is set. The flags end at the first argument that is not one (a lone `-` included) or after
`--`. `-h` and `-help` ask for the usage text. Integers are read with an optional sign and an
optional base prefix (`0x`, `0o`, `0b`, or a leading `0` for octal), where underscores may
separate digits.

Every error prints its message and then the usage text; so do more than one file argument (with
no message) and a request for help.
-/

namespace StackScript

namespace Cli

/-- The options of a command line. -/
structure Options where
  configPath : String := ""
  disasm : Bool := false
  trace : Bool := false
  limit : Int := 0
  output : String := ""
  serve : Bool := false
  verbosity : Int := 0
  file : String := ""
  /-- The flags the line gave, by name. -/
  given : List String := []
deriving Inhabited

/-- The usage text. -/
def usage : String :=
  "Usage: azura [flags] [script.azc|script.az]\n\nFlags:\n" ++
  "  -config string\n    \tPath to azura.toml (default: search upward from the working directory)\n" ++
  "  -disasm\n    \tPrint the compiled bytecode instead of running it\n" ++
  "  -limit int\n    \tMaximum instructions per run (0 = unlimited)\n" ++
  "  -lsp\n    \tStart the language server on stdio\n" ++
  "  -o string\n    \tCompile to an encoded chunk file instead of running\n" ++
  "  -trace\n    \tTrace every executed instruction to stderr\n" ++
  "  -v int\n    \tLog verbosity (higher is more verbose)\n"

/-- How reading a number failed. -/
inductive NumberError where
  | malformed
  | range

/-- The text of a number error. -/
def NumberError.text : NumberError → String
  | .malformed => "parse error"
  | .range => "value out of range"

/-- The value of a digit character in bases up to 36. -/
def digitValue (c : Char) : Option Nat :=
  if '0' ≤ c && c ≤ '9' then some (c.toNat - 48)
  else if 'a' ≤ c.toLower && c.toLower ≤ 'z' then some (c.toLower.toNat - 87)
  else none

/-- Whether the underscores of a number stand only between digits (a base prefix counts as a
digit). `saw` is what came last: `^` the start, `0` a digit, `_` an underscore, `!` other. -/
def underscoresFit (s : List Char) : Bool :=
  let s := match s with
    | '-' :: r | '+' :: r => r
    | r => r
  let (hex, start, body) := match s with
    | '0' :: b :: r =>
      if b.toLower == 'b' || b.toLower == 'o' || b.toLower == 'x' then (b.toLower == 'x', '0', r)
      else (false, '^', s)
    | _ => (false, '^', s)
  let last := body.foldl (fun saw c =>
    if saw == '?' then '?'
    else if c.isDigit || (hex && 'a' ≤ c.toLower && c.toLower ≤ 'f') then '0'
    else if c == '_' then (if saw == '0' then '_' else '?')
    else if saw == '_' then '?'
    else '!') start
  last != '?' && last != '_'

/-- The digits of an unsigned number in a base, below `2^64`. -/
def readDigits (base : Nat) : List Char → Nat → Except NumberError Nat
  | [], n => pure n
  | c :: rest, n =>
    if c == '_' then readDigits base rest n
    else match digitValue c with
      | some d =>
        if d ≥ base then .error .malformed
        else if n ≥ (Nat.pow 2 64 - 1) / base + 1 then .error .range
        else if n * base + d ≥ Nat.pow 2 64 then .error .range
        else readDigits base rest (n * base + d)
      | none => .error .malformed

/-- Reads an unsigned number whose base its prefix gives. -/
def readUnsigned (s : List Char) : Except NumberError Nat := do
  if s.isEmpty then throw .malformed
  let (base, body) := match s with
    | '0' :: b :: r@(_ :: _) =>
      if b.toLower == 'b' then (2, r) else if b.toLower == 'o' then (8, r)
      else if b.toLower == 'x' then (16, r) else (8, s.drop 1)
    | '0' :: r => (8, r)
    | _ => (10, s)
  let n ← readDigits base body 0
  if body.contains '_' && !underscoresFit s then throw .malformed
  pure n

/-- Reads a 64-bit signed integer. -/
def readInt (s : String) : Except NumberError Int := do
  let cs := s.toList
  if cs.isEmpty then throw .malformed
  let (neg, body) := match cs with
    | '+' :: r => (false, r)
    | '-' :: r => (true, r)
    | r => (false, r)
  let n ← readUnsigned body
  if !neg && n ≥ Nat.pow 2 63 then throw .range
  if neg && n > Nat.pow 2 63 then throw .range
  pure (if neg then -(n : Int) else n)

/-- Reads a boolean. -/
def readBool (s : String) : Option Bool :=
  if ["1", "t", "T", "TRUE", "true", "True"].contains s then some true
  else if ["0", "f", "F", "FALSE", "false", "False"].contains s then some false
  else none

/-- The kinds of flag. -/
inductive Kind where
  | flag
  | number
  | text

/-- The kind of each flag, by name. -/
def kindOf : String → Option Kind
  | "config" | "o" => some .text
  | "disasm" | "trace" | "lsp" => some .flag
  | "limit" | "v" => some .number
  | _ => none

/-- Sets a flag that has been read. -/
def assign (o : Options) (name : String) (v : String) : Options :=
  let o := { o with given := o.given ++ [name] }
  match name with
  | "config" => { o with configPath := v }
  | "o" => { o with output := v }
  | "disasm" => { o with disasm := readBool v == some true }
  | "trace" => { o with trace := readBool v == some true }
  | "lsp" => { o with serve := readBool v == some true }
  | "limit" => { o with limit := (readInt v).toOption.getD 0 }
  | "v" => { o with verbosity := (readInt v).toOption.getD 0 }
  | _ => o

/-- How reading the command line ended. -/
inductive Parsed where
  | ok (o : Options)
  /-- Help was asked for: the usage text is printed and the command succeeds. -/
  | help
  /-- A usage error: its message (empty for none) is printed, then the usage text. -/
  | refused (message : String)

/-- Splits `name=value`; the `=` may not be the first character. -/
def splitValue (name : String) : String × Option String :=
  match name.toList with
  | c :: rest =>
    match rest.findIdx? (· == '=') with
    | some i => (String.ofList (c :: rest.take i), some (String.ofList (rest.drop (i + 1))))
    | none => (name, none)
  | [] => (name, none)

/-- Checks and sets a flag that takes a value. -/
def setValue (k : Kind) (name v : String) (o : Options) : Except Parsed Options :=
  match k, readInt v with
  | .number, .error e =>
    throw (.refused ("invalid value " ++ Bytes.quote (Bytes.ofString v) ++ " for flag -" ++ name ++
      ": " ++ e.text))
  | _, _ => pure (assign o name v)

/-- Reads the flags at the front of the arguments; answers the options and the arguments left. -/
def readFlags : List String → Options → Except Parsed (Options × List String)
  | [], o => pure (o, [])
  | arg :: rest, o =>
    let cs := arg.toList
    if cs.length < 2 || cs.head? != some '-' then pure (o, arg :: rest)
    else if cs == ['-', '-'] then pure (o, rest)
    else
      let body := if cs[1]? == some '-' then cs.drop 2 else cs.drop 1
      match body with
      | [] => throw (.refused ("bad flag syntax: " ++ arg))
      | c :: _ =>
        if c == '-' || c == '=' then throw (.refused ("bad flag syntax: " ++ arg))
        else
          let (name, value) := splitValue (String.ofList body)
          match kindOf name, value with
          | none, _ =>
            if name == "help" || name == "h" then throw .help
            else throw (.refused ("flag provided but not defined: -" ++ name))
          | some .flag, some v =>
            match readBool v with
            | some _ => readFlags rest (assign o name v)
            | none => throw (.refused ("invalid boolean value " ++ Bytes.quote (Bytes.ofString v) ++
                " for -" ++ name ++ ": parse error"))
          | some .flag, none => readFlags rest (assign o name "true")
          | some k, some v => do readFlags rest (← setValue k name v o)
          | some k, none =>
            match rest with
            | v :: later => do readFlags later (← setValue k name v o)
            | [] => throw (.refused ("flag needs an argument: -" ++ name))

/-- Reads a command line. -/
def parseArgs (args : List String) : Parsed :=
  match readFlags args {} with
  | .error p => p
  | .ok (o, []) => .ok o
  | .ok (o, [file]) => .ok { o with file }
  | .ok (_, _) => .refused ""

end Cli

end StackScript
