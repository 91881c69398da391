import StackScript.Text.Bytes

/-! # Lexing TOML

A document is cut into items (table headers, key parts, values, comments) by a state machine
that reads one character at a time and may step back over the last few. A stack of states says
where to go once a value, a key part or a comment is read, so the same states serve the top of
the document, arrays and inline tables. Every item carries the line the reader is on when the
item ends.

The first error ends the lexing. A character that no document may hold (a control character
other than tab and line feed, a carriage return that no line feed follows, a byte that starts
no UTF-8 character) is an error where the reader meets it; any other error says what the state
expected and what it found. Items queued before an error are still handed out first, so the
reader of the items sees the document in order up to the error.

Lines are counted as the reader moves: reading a line feed starts the next line and stepping
back over it returns to the line before. Some errors are put on the line before the reader's
(a line feed where none may stand, an error at the end of an input that ends in a line feed),
so that they point at the line they concern.
-/

namespace StackScript

namespace Toml

/-- A unit of a document: a character, or a byte that starts no UTF-8 character. -/
inductive Sym where
  | char (c : Char)
  | stray (b : UInt8)

/-- The units of a byte string: each well-formed character, and each byte where none starts. -/
def Sym.decode : Bytes → List Sym
  | [] => []
  | b :: r =>
    if b < 0x80 then .char (Char.ofNat b.toNat) :: Sym.decode r
    else match Bytes.leadRune b r with
      | some (c, n) => .char c :: Sym.decode (r.drop n)
      | none => .stray b :: Sym.decode r
termination_by bs => bs.length
decreasing_by all_goals simp only [List.length_drop, List.length_cons]; omega

/-- The character the reader answers at the end of the input. -/
def endChar : Char := Char.ofNat 0

/-- The character the reader answers where it meets a unit that no document may hold. -/
def badChar : Char := Char.ofNat 0xFFFD

/-- A blank: space or tab. -/
def isBlank (c : Char) : Bool := c == ' ' || c == '\t'

/-- A line ending character. -/
def isNewline (c : Char) : Bool := c == '\n' || c == '\r'

/-- A decimal digit. -/
def isDigit (c : Char) : Bool := '0' ≤ c && c ≤ '9'

/-- A hexadecimal digit. -/
def isHex (c : Char) : Bool := isDigit c || ('a' ≤ c && c ≤ 'f') || ('A' ≤ c && c ≤ 'F')

/-- An octal digit. -/
def isOctal (c : Char) : Bool := '0' ≤ c && c ≤ '7'

/-- A binary digit. -/
def isBinary (c : Char) : Bool := c == '0' || c == '1'

/-- A character of a bare key. -/
def isBareKeyChar (c : Char) : Bool :=
  ('a' ≤ c && c ≤ 'z') || ('A' ≤ c && c ≤ 'Z') || isDigit c || c == '_' || c == '-'

/-- A control character that no document may hold: below space or delete, other than tab,
line feed and carriage return. -/
def isControl (c : Char) : Bool :=
  c != '\t' && c != '\n' && c != '\r' && (c.toNat < 0x20 || c.toNat == 0x7f)

/-- A letter: the ASCII letters and the letters of the common alphabets beyond them (Latin,
Greek, Cyrillic, Armenian, Hebrew, Arabic, the Japanese syllabaries, Chinese characters and
Hangul). -/
def isLetter (c : Char) : Bool :=
  let n := c.toNat
  ('a' ≤ c && c ≤ 'z') || ('A' ≤ c && c ≤ 'Z') ||
    n == 0xAA || n == 0xB5 || n == 0xBA || (0xC0 ≤ n && n ≤ 0xFF && n != 0xD7 && n != 0xF7) ||
    (0x100 ≤ n && n ≤ 0x2C1) || (0x370 ≤ n && n ≤ 0x373) || n == 0x376 || n == 0x377 ||
    (0x37B ≤ n && n ≤ 0x37D) || n == 0x37F || n == 0x386 || (0x388 ≤ n && n ≤ 0x3FF && n != 0x38B &&
      n != 0x38D && n != 0x3A2 && n != 0x3F6) ||
    (0x400 ≤ n && n ≤ 0x481) || (0x48A ≤ n && n ≤ 0x52F) || (0x531 ≤ n && n ≤ 0x556) ||
    (0x560 ≤ n && n ≤ 0x588) || (0x5D0 ≤ n && n ≤ 0x5EA) || (0x620 ≤ n && n ≤ 0x64A) ||
    (0x3041 ≤ n && n ≤ 0x3096) || (0x30A1 ≤ n && n ≤ 0x30FA) || (0x4E00 ≤ n && n ≤ 0x9FFF) ||
    (0xAC00 ≤ n && n ≤ 0xD7A3)

/-- A character as a quoted character literal: `'a'`, `'\n'`, `'\x00'`. -/
def quoteChar (c : Char) : String :=
  let n := c.toNat
  let body :=
    if c == '\'' then "\\'"
    else if c == '"' then "\""
    else if n < 0x80 then Bytes.quoteAscii (UInt8.ofNat n)
    else Bytes.showRune c
  "'" ++ body ++ "'"

/-- A text as a quoted string literal. -/
def quoteText (s : List Char) : String := Bytes.quote (Bytes.ofString (String.ofList s))

/-- A character in quotes, or the words "end of file" at the end of the input. -/
def charOrEnd (c : Char) : String :=
  if c == endChar then "end of file" else "'" ++ c.toString ++ "'"

/-- What an item is. -/
inductive ItemKind where
  | eof
  | text
  | string
  | escapedString
  | rawString
  | multilineString
  | rawMultilineString
  | bool
  | integer
  | float
  | datetime
  | array
  | arrayEnd
  | tableStart
  | tableEnd
  | arrayTableStart
  | arrayTableEnd
  | keyStart
  | keyEnd
  | commentStart
  | inlineTableStart
  | inlineTableEnd
  deriving DecidableEq

/-- An item: its kind, the characters it covers and the line the reader was on when it ended. -/
structure Item where
  kind : ItemKind
  text : List Char
  line : Nat

/-- The states of the lexer. -/
inductive State where
  | top
  | topEnd
  | tableStart
  | tableEnd
  | arrayTableEnd
  | tableNameStart
  | tableNameEnd
  | bareName
  | quotedName
  | keyStart
  | keyNameStart
  | keyEnd
  | value
  | string
  | multilineString
  | rawString
  | multilineRawString
  | multilineEscape
  | escape
  | hexEscape
  | shortUnicode
  | longUnicode
  | numberOrDateStart
  | numberOrDate
  | datetime
  | hexInteger
  | octalInteger
  | binaryInteger
  | decimal
  | signed
  | zeroStart
  | float
  | bool
  | arrayValue
  | arrayValueEnd
  | arrayEnd
  | inlineValue
  | inlineValueEnd
  | inlineEnd
  | commentStart
  | comment

/-- The lexer: the input, where the pending item starts, where the reader is and on which line,
whether it has read past the end, whether the string being read holds an escape, the states
to return to, the items queued, the error that ended it and the state it runs next. -/
structure Lexer where
  input : Array Sym
  start : Nat
  pos : Nat
  line : Nat
  atEnd : Bool
  escaped : Bool
  stack : List State
  items : List Item
  failure : Option (String × Nat)
  state : Option State

namespace Lexer

/-- The lexer at the start of a document. -/
def ofSyms (input : List Sym) : Lexer :=
  ⟨input.toArray, 0, 0, 1, false, false, [], [], none, some .top⟩

/-- Whether a line feed stands at an index. -/
def lineFeedAt (lx : Lexer) (i : Nat) : Bool :=
  match lx.input[i]? with
  | some (.char c) => c == '\n'
  | _ => false

/-- Ends the lexing with an error on a line, unless it has ended already. -/
def failOn (lx : Lexer) (line : Nat) (message : String) : Lexer :=
  if lx.failure.isSome then lx else { lx with failure := some (message, line) }

/-- An error on the reader's line; at the end of an input that ends in a line feed, on the
line before. -/
def errorf (lx : Lexer) (message : String) : Lexer :=
  let back := lx.atEnd && lx.pos ≥ 1 && lx.lineFeedAt (lx.pos - 1)
  lx.failOn (if back then lx.line - 1 else lx.line) message

/-- An error on the line before the reader's. -/
def errorPrevLine (lx : Lexer) (message : String) : Lexer := lx.failOn (lx.line - 1) message

/-- An error on the reader's line, or on the line before at the end of the input. -/
def errorHere (lx : Lexer) (message : String) : Lexer :=
  if lx.atEnd then lx.errorPrevLine message else lx.failOn lx.line message

/-- Reads the next character. At the end it answers `endChar` and marks the end as read; at
a unit that no document may hold it ends the lexing and answers `badChar`. -/
def next (lx : Lexer) : Lexer × Char :=
  if lx.failure.isSome then (lx, badChar)
  else if lx.atEnd then (lx, endChar)
  else match lx.input[lx.pos]? with
    | none => ({ lx with atEnd := true }, endChar)
    | some (.stray b) =>
      (lx.failOn lx.line ("invalid UTF-8 byte: 0x" ++ Bytes.hexLower b.toNat), badChar)
    | some (.char c) =>
      let lx := if c == '\n' then { lx with line := lx.line + 1 } else lx
      let lone := c == '\r' && !lx.lineFeedAt (lx.pos + 1)
      if isControl c || lone then
        (lx.failOn lx.line ("TOML files cannot contain control characters: '0x" ++
          Bytes.hexLower c.toNat ++ "'"), badChar)
      else ({ lx with pos := lx.pos + 1 }, c)

/-- Steps back over the character read last (or over the end). -/
def backup (lx : Lexer) : Lexer :=
  if lx.atEnd then { lx with atEnd := false }
  else
    let pos := lx.pos - 1
    { lx with pos, line := if lx.lineFeedAt pos then lx.line - 1 else lx.line }

/-- The next character, without reading it. -/
def peek (lx : Lexer) : Lexer × Char :=
  let (lx, c) := lx.next
  (lx.backup, c)

/-- Reads the next character when it is `c`. -/
def accept (lx : Lexer) (c : Char) : Lexer × Bool :=
  let (lx', r) := lx.next
  if r == c then (lx', true) else (lx'.backup, false)

/-- Drops what has been read since the pending item started. -/
def ignore (lx : Lexer) : Lexer := { lx with start := lx.pos }

/-- The characters read since the pending item started. -/
def current (lx : Lexer) : List Char :=
  (lx.input.extract lx.start lx.pos).toList.filterMap fun
    | .char c => some c
    | .stray _ => none

/-- Queues an item of what has been read since the pending item started. -/
def emitText (lx : Lexer) (k : ItemKind) (text : List Char) : Lexer :=
  if lx.failure.isSome then lx
  else { lx with items := lx.items ++ [⟨k, text, lx.line⟩], start := lx.pos }

/-- Queues an item. -/
def emit (lx : Lexer) (k : ItemKind) : Lexer := lx.emitText k lx.current

/-- Queues an item without the blanks around it. -/
def emitTrimmed (lx : Lexer) (k : ItemKind) : Lexer :=
  let blank (c : Char) : Bool := c == ' ' || c == '\t' || c == '\n' || c == '\r'
  lx.emitText k ((lx.current.dropWhile blank).reverse.dropWhile blank).reverse

/-- Skips characters that satisfy `p`. -/
def skipWhile (p : Char → Bool) (lx : Lexer) : Lexer :=
  go (lx.input.size - lx.pos + 1) lx
where
  go : Nat → Lexer → Lexer
    | 0, lx => lx
    | fuel + 1, lx =>
      let (lx', r) := lx.next
      if p r then go fuel lx' else lx'.backup.ignore

/-- Reads the letters that follow. -/
def letters (lx : Lexer) : Lexer × List Char :=
  go (lx.input.size - lx.pos + 1) lx []
where
  go : Nat → Lexer → List Char → Lexer × List Char
    | 0, lx, acc => (lx, acc.reverse)
    | fuel + 1, lx, acc =>
      let (lx', r) := lx.next
      if isLetter r then go fuel lx' (r :: acc) else (lx'.backup, acc.reverse)

/-- Saves a state to return to. -/
def push (lx : Lexer) (s : State) : Lexer := { lx with stack := s :: lx.stack }

/-- Returns to the state saved last. -/
def pop (lx : Lexer) : Lexer × Option State :=
  match lx.stack with
  | s :: rest => ({ lx with stack := rest }, some s)
  | [] => (lx.errorf "BUG in lexer: no states to pop", none)

/-- Reads `inf` after `i` or `nan` after `n`, in the way the value state tries both. -/
def specialFloat (lx : Lexer) : Lexer × Bool :=
  let (lx, a) := lx.accept 'n'
  let (lx, b) := if a then lx.accept 'f' else (lx, false)
  if b then (lx, true)
  else
    let (lx, c) := lx.accept 'a'
    if c then lx.accept 'n' else (lx, false)

/-- Reads an escape after its backslash. -/
def escapeStep (lx : Lexer) : Lexer × Option State :=
  let (lx, r) := ({ lx with escaped := true } : Lexer).next
  if "ebtnfr\" \t\\".toList.contains r then lx.pop
  else if r == 'x' then (lx, some .hexEscape)
  else if r == 'u' then (lx, some .shortUnicode)
  else if r == 'U' then (lx, some .longUnicode)
  else (lx.errorHere ("invalid escape in string '\\" ++ r.toString ++ "'"), none)

/-- Reads the hexadecimal digits of an escape, `count` of them, `what` naming how many. -/
def hexDigits (count : Nat) (what letter : String) (lx : Lexer) : Lexer × Option State :=
  go count lx
where
  go : Nat → Lexer → Lexer × Option State
    | 0, lx => lx.pop
    | k + 1, lx =>
      let (lx, r) := lx.next
      if isHex r then go k lx
      else (lx.errorf ("expected " ++ what ++ " hexadecimal digits after '\\" ++ letter ++
        "', but got " ++ quoteText lx.current ++ " instead"), none)

/-- Reads the closing quotes of a multi-line string delimited by `q`, after the first of them:
three quotes end it, and up to two more before them belong to the string; six in a row are an
error. -/
def closingQuotes (q : Char) (lx : Lexer) (k : ItemKind) (self : State)
    (tooMany : List Char → Bool) (tooManyText : String) : Lexer × Option State :=
  let (lx1, a) := lx.accept q
  if !a then (lx1, some self)
  else
    let (lx2, b) := lx1.accept q
    if !b then (lx2.backup, some self)
    else
      let (lx3, p) := lx2.peek
      if p == q then
        if tooMany lx3.current then (lx3.errorf tooManyText, none)
        else (lx3.backup.backup, some self)
      else
        let lx4 := ({ lx3.backup.backup.backup with escaped := false }).emit k
        let (lx4, _) := lx4.next
        let (lx4, _) := lx4.next
        let (lx4, _) := lx4.next
        lx4.ignore.pop

/-- One step of the lexer in a state: the lexer after it and the state it goes to, none when
it stops. -/
def step (lx : Lexer) : State → Lexer × Option State
  | .top =>
    let (lx, r) := lx.next
    if isBlank r || isNewline r then (lx.ignore, some .top)
    else if r == '#' then (lx.push .top, some .commentStart)
    else if r == '[' then (lx, some .tableStart)
    else if r == endChar then
      if lx.pos > lx.start then (lx.errorf "unexpected EOF", none) else (lx.emit .eof, none)
    else (lx.backup.push .topEnd, some .keyStart)
  | .topEnd =>
    let (lx, r) := lx.next
    if r == '#' then (lx.push .top, some .commentStart)
    else if isBlank r then (lx, some .topEnd)
    else if isNewline r then (lx.ignore, some .top)
    else if r == endChar then (lx.emit .eof, none)
    else (lx.errorf ("expected a top-level item to end with a newline, comment, or EOF, but got " ++
      quoteChar r ++ " instead"), none)
  | .tableStart =>
    let (lx, r) := lx.peek
    if r == '[' then
      let (lx, _) := lx.next
      ((lx.emit .arrayTableStart).push .arrayTableEnd, some .tableNameStart)
    else ((lx.emit .tableStart).push .tableEnd, some .tableNameStart)
  | .tableEnd => (lx.emit .tableEnd, some .topEnd)
  | .arrayTableEnd =>
    let (lx, r) := lx.next
    if r != ']' then
      (lx.errorf ("expected end of table array name delimiter ']', but got " ++ quoteChar r ++
        " instead"), none)
    else (lx.emit .arrayTableEnd, some .topEnd)
  | .tableNameStart =>
    let (lx, r) := (lx.skipWhile isBlank).peek
    if r == ']' || r == endChar then
      (lx.errorf "unexpected end of table name (table names cannot be empty)", none)
    else if r == '.' then (lx.errorf "unexpected table separator (table names cannot be empty)", none)
    else if r == '"' || r == '\'' then (lx.ignore.push .tableNameEnd, some .quotedName)
    else (lx.push .tableNameEnd, some .bareName)
  | .tableNameEnd =>
    let (lx, r) := (lx.skipWhile isBlank).next
    if isBlank r then (lx, some .tableNameEnd)
    else if r == '.' then (lx.ignore, some .tableNameStart)
    else if r == ']' then lx.pop
    else (lx.errorf ("expected '.' or ']' to end table name, but got " ++ quoteChar r ++
      " instead"), none)
  | .bareName =>
    let (lx, r) := lx.next
    if isBareKeyChar r then (lx, some .bareName) else (lx.backup.emit .text).pop
  | .quotedName =>
    let (lx, r) := lx.next
    if isBlank r then (lx.ignore, some .value)
    else if r == '"' then (lx.ignore, some .string)
    else if r == '\'' then (lx.ignore, some .rawString)
    else if r == endChar then (lx.errorf "unexpected EOF; expected value", none)
    else (lx.errorf ("expected value but found " ++ quoteChar r ++ " instead"), none)
  | .keyStart =>
    let (lx, r) := (lx.skipWhile isBlank).peek
    if r == '=' || r == endChar then (lx.errorf "unexpected '=': key name appears blank", none)
    else if r == '.' then (lx.errorf "unexpected '.': keys cannot start with a '.'", none)
    else if r == '"' || r == '\'' then (lx.ignore.emit .keyStart, some .keyNameStart)
    else (lx.emit .keyStart, some .keyNameStart)
  | .keyNameStart =>
    let (lx, r) := (lx.skipWhile isBlank).peek
    if r == '"' || r == '\'' then (lx.ignore.push .keyEnd, some .quotedName)
    else if r == '=' || r == endChar then (lx.errorf "unexpected '='", none)
    else if r == '.' then (lx.errorf "unexpected '.'", none)
    else (lx.push .keyEnd, some .bareName)
  | .keyEnd =>
    let (lx, r) := (lx.skipWhile isBlank).next
    if isBlank r then (lx.ignore, some .keyEnd)
    else if r == endChar then (lx.errorf "unexpected EOF; expected key separator '='", none)
    else if r == '.' then (lx.ignore, some .keyNameStart)
    else if r == '=' then ((lx.emit .keyEnd).ignore, some .value)
    else
      let message := "expected '.' or '=', but got " ++ quoteChar r ++ " instead"
      (if r == '\n' then lx.errorPrevLine message else lx.errorf message, none)
  | .value =>
    let (lx, r) := lx.next
    if isBlank r then (lx.ignore, some .value)
    else if isDigit r then (lx.backup, some .numberOrDateStart)
    else if r == '[' then (lx.ignore.emit .array, some .arrayValue)
    else if r == '{' then (lx.ignore.emit .inlineTableStart, some .inlineValue)
    else if r == '"' || r == '\'' then
      let long := if r == '"' then State.multilineString else State.multilineRawString
      let short := if r == '"' then State.string else State.rawString
      let (lx1, a) := lx.accept r
      if a then
        let (lx2, b) := lx1.accept r
        if b then (lx2.ignore, some long) else (lx2.backup.ignore, some short)
      else (lx1.ignore, some short)
    else if r == '.' then (lx.errorf "floats must start with a digit, not '.'", none)
    else
      let (lx, special) := if r == 'i' || r == 'n' then lx.specialFloat else (lx, false)
      if special then (lx.emit .float).pop
      else if r == '-' || r == '+' then (lx, some .signed)
      else if isLetter r then (lx.backup, some .bool)
      else if r == endChar then (lx.errorf "unexpected EOF; expected value", none)
      else
        let message := "expected value but found " ++ quoteChar r ++ " instead"
        (if r == '\n' then lx.errorPrevLine message else lx.errorf message, none)
  | .string =>
    let (lx, r) := lx.next
    if r == endChar then (lx.errorf "unexpected EOF; expected '\"'", none)
    else if isNewline r then (lx.errorPrevLine "strings cannot contain newlines", none)
    else if r == '\\' then (lx.push .string, some .escape)
    else if r == '"' then
      let lx := lx.backup
      let lx := if lx.escaped then ({ lx with escaped := false }).emit .escapedString
        else lx.emit .string
      let (lx, _) := lx.next
      lx.ignore.pop
    else (lx, some .string)
  | .multilineString =>
    let (lx, r) := lx.next
    if r == endChar then (lx.errorf "unexpected EOF; expected '\"\"\"'", none)
    else if r == '\\' then (lx, some .multilineEscape)
    else if r == '"' then
      closingQuotes '"' lx .multilineString .multilineString
        (fun cur => "\"\"\"\"\"".toList.isSuffixOf cur && !"\\\"\"\"\"\"".toList.isSuffixOf cur)
        "unexpected '\"\"\"\"\"\"'"
    else (lx, some .multilineString)
  | .rawString =>
    let (lx, r) := lx.next
    if r == endChar then (lx.errorf "unexpected EOF; expected \"'\"", none)
    else if isNewline r then (lx.errorPrevLine "strings cannot contain newlines", none)
    else if r == '\'' then
      let lx := lx.backup.emit .rawString
      let (lx, _) := lx.next
      lx.ignore.pop
    else (lx, some .rawString)
  | .multilineRawString =>
    let (lx, r) := lx.next
    if r == endChar then (lx.errorf "unexpected EOF; expected \"'''\"", none)
    else if r == '\'' then
      closingQuotes '\'' lx .rawMultilineString .multilineRawString
        (fun cur => "'''''".toList.isSuffixOf cur) "unexpected \"''''''\""
    else (lx, some .multilineRawString)
  | .multilineEscape =>
    let (lx, r) := lx.next
    if isNewline r then (lx, some .multilineString)
    else (lx.backup.push .multilineString).escapeStep
  | .escape => lx.escapeStep
  | .hexEscape => lx.hexDigits 2 "two" "x"
  | .shortUnicode => lx.hexDigits 4 "four" "u"
  | .longUnicode => lx.hexDigits 8 "eight" "U"
  | .numberOrDateStart =>
    let (lx, r) := lx.next
    if r == '0' then (lx, some .zeroStart)
    else if !isDigit r then (lx.errorf ("expected a digit but got " ++ quoteChar r), none)
    else (lx, some .numberOrDate)
  | .numberOrDate =>
    let (lx, r) := lx.next
    if isDigit r then (lx, some .numberOrDate)
    else if r == '-' || r == ':' then (lx, some .datetime)
    else if r == '_' then (lx, some .decimal)
    else if r == '.' || r == 'e' || r == 'E' then (lx, some .float)
    else (lx.backup.emit .integer).pop
  | .datetime =>
    let (lx, r) := lx.next
    if isDigit r || "-:Tt .Zz+".toList.contains r then (lx, some .datetime)
    else (lx.backup.emitTrimmed .datetime).pop
  | .hexInteger =>
    let (lx, r) := lx.next
    if isHex r || r == '_' then (lx, some .hexInteger) else (lx.backup.emit .integer).pop
  | .octalInteger =>
    let (lx, r) := lx.next
    if isOctal r || r == '_' then (lx, some .octalInteger) else (lx.backup.emit .integer).pop
  | .binaryInteger =>
    let (lx, r) := lx.next
    if isBinary r || r == '_' then (lx, some .binaryInteger) else (lx.backup.emit .integer).pop
  | .decimal =>
    let (lx, r) := lx.next
    if isDigit r || r == '_' then (lx, some .decimal)
    else if r == '.' || r == 'e' || r == 'E' then (lx, some .float)
    else (lx.backup.emit .integer).pop
  | .signed =>
    let (lx, r) := lx.next
    if r == 'i' || r == 'n' then
      let (first, second) := if r == 'i' then ('n', 'f') else ('a', 'n')
      let (lx, a) := lx.accept first
      let (lx, b) := if a then lx.accept second else (lx, false)
      if b then (lx.emit .float).pop
      else (lx.errorf ("invalid float: '" ++ String.ofList lx.current ++ "'"), none)
    else if r == '0' && ("box".toList.contains lx.peek.2) then
      (lx.errorf ("cannot use sign with non-decimal numbers: '" ++ String.ofList lx.current ++
        lx.peek.2.toString ++ "'"), none)
    else if r == '.' then (lx.errorf "floats must start with a digit, not '.'", none)
    else if isDigit r then (lx, some .decimal)
    else (lx.errorf ("expected a digit but got " ++ quoteChar r), none)
  | .zeroStart =>
    let (lx, r) := lx.next
    if isDigit r then (lx, some .numberOrDate)
    else if r == '_' then (lx, some .decimal)
    else if r == '.' || r == 'e' || r == 'E' then (lx, some .float)
    else if r == 'b' || r == 'o' || r == 'x' then
      let (lx, p) := lx.peek
      let (fits, name, next) : (Char → Bool) × String × State :=
        if r == 'b' then (isBinary, "a binary", .binaryInteger)
        else if r == 'o' then (isOctal, "an octal", .octalInteger)
        else (isHex, "a hexadecimal", .hexInteger)
      if fits p then (lx, some next)
      else (lx.errorf ("not " ++ name ++ " number: '" ++ String.ofList lx.current ++ p.toString ++ "'"),
        some next)
    else (lx.backup.emit .integer).pop
  | .float =>
    let (lx, r) := lx.next
    if isDigit r || "_.-+eE".toList.contains r then (lx, some .float)
    else (lx.backup.emit .float).pop
  | .bool =>
    let (lx, word) := lx.letters
    if word == "true".toList || word == "false".toList then (lx.emit .bool).pop
    else (lx.errorf ("expected value but found " ++ quoteText word ++ " instead"), none)
  | .arrayValue =>
    let (lx, r) := lx.next
    if isBlank r || isNewline r then (lx.ignore, some .arrayValue)
    else if r == '#' then (lx.push .arrayValue, some .commentStart)
    else if r == ',' then (lx.errorf "unexpected comma", none)
    else if r == ']' then (lx, some .arrayEnd)
    else (lx.backup.push .arrayValueEnd, some .value)
  | .arrayValueEnd =>
    let (lx, r) := lx.next
    if isBlank r || isNewline r then (lx.ignore, some .arrayValueEnd)
    else if r == '#' then (lx.push .arrayValueEnd, some .commentStart)
    else if r == ',' then (lx.ignore, some .arrayValue)
    else if r == ']' then (lx, some .arrayEnd)
    else (lx.errorf ("expected a comma (',') or array terminator (']'), but got " ++ charOrEnd r),
      none)
  | .arrayEnd => (lx.ignore.emit .arrayEnd).pop
  | .inlineValue =>
    let (lx, r) := lx.next
    if isBlank r || isNewline r then (lx.ignore, some .inlineValue)
    else if r == '#' then (lx.push .inlineValue, some .commentStart)
    else if r == ',' then (lx.errorf "unexpected comma", none)
    else if r == '}' then (lx, some .inlineEnd)
    else (lx.backup.push .inlineValueEnd, some .keyStart)
  | .inlineValueEnd =>
    let (lx, r) := lx.next
    if isBlank r || isNewline r then (lx.ignore, some .inlineValueEnd)
    else if r == '#' then (lx.push .inlineValueEnd, some .commentStart)
    else if r == ',' then
      let (lx, p) := (lx.ignore.skipWhile isBlank).peek
      (lx, some (if p == '}' then .inlineValueEnd else .inlineValue))
    else if r == '}' then (lx, some .inlineEnd)
    else (lx.errorf ("expected a comma or an inline table terminator '\x7d', but got " ++ charOrEnd r ++
      " instead"), none)
  | .inlineEnd => (lx.ignore.emit .inlineTableEnd).pop
  | .commentStart => (lx.ignore.emit .commentStart, some .comment)
  | .comment =>
    let (lx, r) := lx.next
    if isNewline r || r == endChar then (lx.backup.emit .text).pop else (lx, some .comment)

/-- Runs the lexer until an item is queued, it fails or it stops, at most `fuel` steps. -/
def fill : Nat → Lexer → Lexer
  | 0, lx => lx
  | fuel + 1, lx =>
    if !lx.items.isEmpty || lx.failure.isSome then lx
    else match lx.state with
      | none => lx
      | some s =>
        let (lx, s') := lx.step s
        fill fuel { lx with state := s' }

/-- The next item, or the error (with its line) that ended the lexing once the items queued
before it are taken. A lexer that has stopped keeps answering the end of the input. -/
def nextItem (lx : Lexer) : Lexer × Except (String × Nat) Item :=
  let lx := fill (4 * (lx.input.size + 4)) lx
  match lx.items with
  | i :: rest => ({ lx with items := rest }, .ok i)
  | [] =>
    match lx.failure with
    | some e => (lx, .error e)
    | none => (lx, .ok ⟨.eof, [], lx.line⟩)

end Lexer

end Toml

end StackScript
