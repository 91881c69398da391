import StackScript.Toml.Scalar

/-! # TOML documents

Reads the items of a document, in order, into its tree of tables, keeping the keys in the order
they were written and, for each key, whether its latest value is an array and the line of its
latest definition.

A table header names a table to define, creating the tables on its path as needed; those are
*implicit*, and an implicit table may be defined later by a header of its own, once. A dotted
key creates (or enters) the tables on its path the same way. An array-of-tables header adds a
table to the array at its key. Assigning a key that exists is an error, except that an
implicit table is taken to be defined by it (keeping its entries) and that a key whose latest
value is an array may be given a new value. An inline table defines its table in place, and its
entries are assigned inside it; inside an array it adds to an array of tables at the key, which
the array's value then replaces.

An error is reported with a line and the last key the reader was at: the table it was in, and
the key being assigned when there is one. Errors met while lexing are reported when the reader
reaches them, after the items before them have been read.
-/

namespace StackScript

namespace Toml

/-- A key: its parts, outermost first. -/
abbrev Key := List String

/-- A node of a document's tree. -/
inductive Node where
  | string (s : String)
  | integer (n : Int)
  | float (x : Float)
  | boolean (b : Bool)
  | datetime (text : String)
  | list (items : List Node)
  | table (entries : List (String × Node))
  | tables (items : List (List (String × Node)))

/-- The entries of a table. -/
abbrev Entries := List (String × Node)

/-- The entry at a key. -/
def Entries.lookup (es : Entries) (k : String) : Option Node := (List.find? (·.1 == k) es).map (·.2)

/-- The entries with the key set, in place when it is there and last otherwise. -/
def Entries.set (es : Entries) (k : String) (n : Node) : Entries :=
  if es.any (·.1 == k) then es.map fun e => if e.1 == k then (k, n) else e else es ++ [(k, n)]

/-- Changes the entries of the table at a path, where the path runs through tables and through
the last table of arrays of tables. Where the path cannot be followed, the error is made by
`stop` from the keys walked so far and whether the last of them was missing. -/
def Entries.modifyAt {ε α : Type} (stop : Key → Bool → ε) (f : Entries → Except ε (Entries × α)) :
    Key → Key → Entries → Except ε (Entries × α)
  | _, [], es => f es
  | walked, k :: ks, es =>
    let walked := walked ++ [k]
    match es.lookup k with
    | some (.table t) => do
      let (t, a) ← Entries.modifyAt stop f walked ks t
      pure (es.set k (.table t), a)
    | some (.tables ts) =>
      match ts.getLast? with
      | some t => do
        let (t, a) ← Entries.modifyAt stop f walked ks t
        pure (es.set k (.tables (ts.dropLast ++ [t])), a)
      | none => .error (stop walked false)
    | some _ => .error (stop walked false)
    | none => .error (stop walked true)

/-- A character of a key part inside the quotes of a written key. -/
def keyCharText (c : Char) : String :=
  if c == '"' then "\\\""
  else if c == '\\' then "\\\\"
  else if c == '\x08' then "\\b"
  else if c == '\t' then "\\t"
  else if c == '\n' then "\\n"
  else if c == '\x0c' then "\\f"
  else if c == '\r' then "\\r"
  else if c.toNat < 0x20 || c.toNat == 0x7f then "\\u00" ++ Bytes.hexLower c.toNat
  else c.toString

/-- A key part as a document would write it: bare when it can be, quoted otherwise. -/
def keyPartText (k : String) : String :=
  if k.isEmpty then "\"\""
  else if k.toList.all isBareKeyChar then k
  else "\"" ++ String.join (k.toList.map keyCharText) ++ "\""

/-- A key as a document would write it. -/
def keyText (k : Key) : String := ".".intercalate (k.map keyPartText)

/-- What the reader knows of a key: whether its latest value is an array, and the line of its
latest definition. -/
structure KeyInfo where
  array : Bool
  line : Nat

/-- An error reading a document: its line, the last key the reader was at, and what is
wrong. -/
structure ParseError where
  line : Nat
  lastKey : String
  message : String

/-- The text of a reading error. -/
def ParseError.text (e : ParseError) : String :=
  "toml: line " ++ toString e.line ++
    (if e.lastKey.isEmpty then "" else " (last key " ++ Bytes.quote (Bytes.ofString e.lastKey) ++ ")") ++
    ": " ++ e.message

/-- The reader of a document: the lexer, the table it is in, the key being assigned, the line
of the key or header being read, the tree so far, the implicit tables, what it knows of each
key, and the keys in the order written. -/
structure Parser where
  lexer : Lexer
  context : Key
  currentKey : String
  line : Nat
  root : Entries
  implicit : List Key
  info : List (Key × KeyInfo)
  ordered : List Key

/-- Reading a document. -/
abbrev Parse := StateT Parser (Except ParseError)

namespace Parse

/-- The last key the reader is at: the table, and in it the key being assigned. -/
def lastKey (p : Parser) : String :=
  if p.currentKey.isEmpty then keyText p.context
  else if p.context.isEmpty then p.currentKey
  else keyText p.context ++ "." ++ p.currentKey

/-- Fails on a line. -/
def failOn {α : Type} (line : Nat) (message : String) : Parse α := do
  throw ⟨line, lastKey (← get), message⟩

/-- Fails on the line of the key or header being read. -/
def fail {α : Type} (message : String) : Parse α := do failOn (← get).line message

/-- Fails where the reader meets what cannot happen. -/
def bug {α : Type} (message : String) : Parse α := fail ("BUG: " ++ message)

/-- The next item. -/
def next : Parse Item := do
  let p ← get
  let (lexer, r) := p.lexer.nextItem
  set { p with lexer }
  match r with
  | .ok it => pure it
  | .error (message, line) => failOn line message

/-- The next item, which starts a key or a header: its line becomes the reader's. -/
def nextPos : Parse Item := do
  let it ← next
  modify fun p => { p with line := it.line }
  pure it

/-- Reads an item of a kind. -/
def expect (k : ItemKind) : Parse Unit := do
  let it ← next
  if it.kind != k then bug "unexpected item"

/-- Marks a key as an implicit table. -/
def addImplicit (k : Key) : Parse Unit := modify fun p => { p with implicit := k :: p.implicit }

/-- Unmarks a key as an implicit table. -/
def removeImplicit (k : Key) : Parse Unit :=
  modify fun p => { p with implicit := p.implicit.filter (· != k) }

/-- Records a key as written. -/
def addOrdered (k : Key) : Parse Unit := modify fun p => { p with ordered := p.ordered ++ [k] }

/-- Records what a key (in the current table) now holds, and the line. An empty key stands for
the current table itself. -/
def setType (key : String) (array : Bool) (line : Nat) : Parse Unit :=
  modify fun p =>
    let path := if key.isEmpty then p.context else p.context ++ [key]
    let path := if path.isEmpty then [""] else path
    { p with info := (path, ⟨array, line⟩) :: p.info.filter (·.1 != path) }

/-- Whether a key's latest value is an array. -/
def isArray (p : Parser) (k : Key) : Bool :=
  match p.info.find? (·.1 == k) with
  | some (_, i) => i.array
  | none => false

/-- The error for a path that runs through a key that holds no table. -/
def definedText (walked : Key) (missing : Bool) : String :=
  if missing then "BUG: Context for key '" ++ keyText walked ++ "' has not been established."
  else "Key '" ++ keyText walked ++ "' has already been defined."

/-- Changes the entries of the table at a path. -/
def modifyAt {α : Type} (path : Key) (stop : Key → Bool → String)
    (f : Entries → Except String (Entries × α)) : Parse α := do
  let p ← get
  match Entries.modifyAt stop f [] path p.root with
  | .ok (root, a) =>
    set { p with root }
    pure a
  | .error message => fail message

/-- Assigns a value to a key in the current table. -/
def setValue (key : String) (v : Node) : Parse Unit := do
  let p ← get
  let path := p.context ++ [key]
  let array := isArray p path
  let implicit := p.implicit.contains path
  let kept ← modifyAt p.context definedText fun es =>
    match es.lookup key with
    | some _ =>
      if array then pure (es.set key v, true)
      else if implicit then pure (es, true)
      else .error ("Key '" ++ keyText path ++ "' has already been defined.")
    | none => pure (es.set key v, false)
  if kept then removeImplicit path

/-- Enters the tables on a path below `base`, creating as implicit the ones that are
missing. -/
def enterParents (base : Key) : Key → Parse Unit
  | [] => pure ()
  | k :: ks => do
    let here := base ++ [k]
    let created ← modifyAt base definedText fun es =>
      match es.lookup k with
      | none => pure (es.set k (.table []), true)
      | some (.table _) | some (.tables _) => pure (es, false)
      | some _ => .error ("Key '" ++ keyText here ++ "' was already created as a hash.")
    if created then addImplicit here
    enterParents here ks

/-- Makes a key the current table: as a table, or as a new table at the end of an array of
tables. -/
def addContext (key : Key) (array : Bool) : Parse Unit := do
  let parents := key.dropLast
  let last := key.getLastD ""
  enterParents [] parents
  modify fun p => { p with context := parents }
  if array then
    modifyAt parents definedText fun es =>
      match es.lookup last with
      | none => pure (es.set last (.tables [[]]), ())
      | some (.tables ts) => pure (es.set last (.tables (ts ++ [[]])), ())
      | some _ =>
        .error ("Key '" ++ keyText key ++ "' was already created and cannot be used as an array.")
  else setValue last (.table [])
  modify fun p => { p with context := parents ++ [last] }

/-- Enters the tables that the leading parts of a dotted key name, each as an implicit
table. -/
def enterDotted : List String → Parse Unit
  | [] => pure ()
  | k :: ks => do
    let key := (← get).context ++ [k]
    addImplicit key
    addContext key false
    enterDotted ks

/-- Reads the parts of a key or a table name, from its first item up to the item that ends
it. -/
def readKey (stop : ItemKind) : Nat → Item → Parse Key
  | 0, _ => bug "key too long"
  | fuel + 1, it =>
    if it.kind == stop then pure []
    else if it.kind == .eof then bug "unexpected end in key"
    else do
      let part ← match it.kind with
        | .text => pure (String.ofList it.text)
        | .string | .escapedString | .multilineString | .rawString | .rawMultilineString =>
          stringValue it
        | _ => bug "Unexpected key type"
      let rest ← readKey stop fuel (← next)
      pure (part :: rest)
where
  /-- The text of a string item. -/
  stringValue (it : Item) : Parse String :=
    let r : Except String (List Char) := match it.kind with
      | .escapedString => replaceEscapes it.text
      | .multilineString => replaceEscapes (stripEscapedNewlines (stripFirstNewline it.text))
      | .rawMultilineString => pure (stripFirstNewline it.text)
      | _ => pure it.text
    match r with
    | .ok cs => pure (String.ofList cs)
    | .error m => failOn it.line m

/-- The value of a scalar item, or its error on the item's line. -/
def scalar {α : Type} (it : Item) : Except String α → Parse α
  | .ok a => pure a
  | .error m => failOn it.line m

/-- Adds an entry of an inline table to the table it makes; the leading parts of a dotted key
must name tables there. -/
def nest (es : Entries) (key : Key) (v : Node) : Parse Entries :=
  match key with
  | [] => pure es
  | [k] => pure (es.set k v)
  | k :: ks =>
    match es.lookup k with
    | some (.table t) => do pure (es.set k (.table (← nest t ks v)))
    | none => do pure (es.set k (.table (← nest [] ks v)))
    | some _ => do fail (Bytes.quote (Bytes.ofString (keyText (← get).context)) ++ " is not a table")

mutual

/-- Reads the value an item starts, for the current key; `inArray` says that it is an item of
an array. Answers the node and whether it is an array. -/
def value : Nat → Item → Bool → Parse (Node × Bool)
  | 0, _, _ => bug "value nested too deeply"
  | fuel + 1, it, inArray =>
    match it.kind with
    | .string | .escapedString | .multilineString | .rawString | .rawMultilineString => do
      pure (.string (← readKey.stringValue it), false)
    | .integer => do pure (.integer (← scalar it (integerValue it.text)), false)
    | .float => do pure (.float (← scalar it (floatValue it.text)), false)
    | .bool => pure (.boolean (it.text == "true".toList), false)
    | .datetime => do pure (.datetime (← scalar it (datetimeValue it.text)), false)
    | .array => valueArray fuel it
    | .inlineTableStart => valueInline fuel inArray
    | _ => bug "Unexpected value type"

/-- Reads an array, after its opening item. -/
def valueArray : Nat → Item → Parse (Node × Bool)
  | 0, _ => bug "value nested too deeply"
  | fuel + 1, it => do
    setType (← get).currentKey true it.line
    let items ← arrayItems fuel []
    pure (.list items, true)

/-- Reads the items of an array up to its end. -/
def arrayItems : Nat → List Node → Parse (List Node)
  | 0, _ => bug "array too long"
  | fuel + 1, acc => do
    let it ← next
    if it.kind == .arrayEnd then pure acc.reverse
    else if it.kind == .commentStart then do
      expect .text
      arrayItems fuel acc
    else do
      let (v, _) ← value fuel it true
      arrayItems fuel (v :: acc)

/-- Reads an inline table, after its opening item. -/
def valueInline : Nat → Bool → Parse (Node × Bool)
  | 0, _ => bug "value nested too deeply"
  | fuel + 1, inArray => do
    let p ← get
    let outerContext := p.context
    let outerKey := p.currentKey
    let here := p.context ++ [p.currentKey]
    set { p with context := here, currentKey := "" }
    addImplicit here
    addContext here inArray
    let table ← inlineEntries fuel here []
    modify fun p => { p with context := outerContext, currentKey := outerKey }
    pure (.table table, false)

/-- Reads the entries of an inline table whose table is `here`, up to its end; answers the
table they make. -/
def inlineEntries : Nat → Key → Entries → Parse Entries
  | 0, _, _ => bug "inline table too long"
  | fuel + 1, here, acc => do
    let it ← next
    if it.kind == .inlineTableEnd then pure acc
    else if it.kind == .commentStart then do
      expect .text
      inlineEntries fuel here acc
    else do
      let key ← readKey .keyEnd fuel (← nextPos)
      let last := key.getLastD ""
      modify fun p => { p with currentKey := last }
      enterDotted key.dropLast
      addOrdered ((← get).context ++ [last])
      let (v, array) ← value fuel (← next) false
      setValue last v
      setType last array it.line
      let acc ← nest acc key v
      modify fun p => { p with context := here }
      inlineEntries fuel here acc

end

/-- Reads what an item at the top of a document starts: a comment, a table header, an
array-of-tables header or a key and its value. -/
def topLevel (fuel : Nat) (it : Item) : Parse Unit :=
  match it.kind with
  | .commentStart => expect .text
  | .tableStart => do
    let key ← readKey .tableEnd fuel (← nextPos)
    addContext key false
    setType "" false it.line
    addOrdered key
  | .arrayTableStart => do
    let key ← readKey .arrayTableEnd fuel (← nextPos)
    addContext key true
    setType "" false it.line
    addOrdered key
  | .keyStart => do
    let outer := (← get).context
    let key ← readKey .keyEnd fuel (← nextPos)
    let last := key.getLastD ""
    modify fun p => { p with currentKey := last }
    enterDotted key.dropLast
    addOrdered ((← get).context ++ [last])
    let vItem ← next
    let (v, array) ← value fuel vItem false
    setValue last v
    setType last array vItem.line
    modify fun p => { p with context := outer, currentKey := "" }
  | _ => bug "Unexpected type at top level"

/-- Reads the items of a document up to its end, at most `count` of them, each with `depth`
to nest in. -/
def items (depth : Nat) : Nat → Parse Unit
  | 0 => pure ()
  | count + 1 => do
    let it ← next
    if it.kind == .eof then pure ()
    else do
      topLevel depth it
      items depth count

end Parse

/-- A document: its tree, its keys in the order they were written, and what is known of each
key. -/
structure Document where
  root : Entries
  ordered : List Key
  info : List (Key × KeyInfo)

/-- The line of a key's latest definition, 0 for a key never defined itself. -/
def Document.lineOf (d : Document) (k : Key) : Nat :=
  ((d.info.find? (·.1 == k)).map (·.2.line)).getD 0

/-- Reads a document given as bytes. A leading byte order mark is dropped; a zero byte among
the first six is refused as a sign of UTF-16. -/
def Document.parse (text : Bytes) : Except ParseError Document :=
  let text := match text with
    | 0xFF :: 0xFE :: rest | 0xFE :: 0xFF :: rest => rest
    | 0xEF :: 0xBB :: 0xBF :: rest => rest
    | t => t
  if (text.take 6).contains 0 then
    .error ⟨1, "", "files cannot contain NULL bytes; probably using UTF-16; TOML files must be UTF-8"⟩
  else
    let syms := Sym.decode text
    let n := syms.length
    let start : Parser := ⟨Lexer.ofSyms syms, [], "", 0, [], [], [], []⟩
    match (Parse.items (8 * (n + 4)) (4 * (n + 4))).run start with
    | .ok ((), p) => .ok ⟨p.root, p.ordered, p.info⟩
    | .error e => .error e

end Toml

end StackScript
