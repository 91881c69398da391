import StackScript.Cbor.Read
import StackScript.Bytecode.Chunk
import StackScript.Heap

/-! # Chunk files

A chunk is stored as a CBOR map with integer keys: 1 the magic text `azura`, 2 the format
version 1, 3 the chunk's name (left out when empty), 4 the code as a byte string, 5 the line of
every code byte, 6 the constants (left out when there are none). A constant is a map: 1 its kind
(0 nil, 1 boolean, 2 number, 3 string), 2 the boolean (left out when false), 3 the number (zero
for all but numbers), 4 the characters (strings only). Writing is canonical: keys in ascending
order, shortest heads, every number in the narrowest float width that holds it exactly, and
empty code or lines as null.

Reading fills two records field by field, as a decoder into typed fields does: a key names a
field by its number or by the decimal text of it, the first key that names a field sets it and
later ones are skipped, as is a key that names no field; null leaves a field as it was (a
sequence field is emptied, the string of a constant is dropped); a field of a small unsigned type
takes integers and simple values that fit; a number field takes integers and floats; the code
takes a byte string or an array of bytes; tags are looked through, and the bignum tags 2 and 3
count as integers, or as bytes where a sequence is expected. Anything else is an error, as is an
input that is not one well-formed item. A mismatch inside a field is reported as met in that
field of the outermost record.

The records are then checked (magic, version, as many lines as code bytes, at most 256
constants) and turned into a chunk, interning string constants in order.
-/

namespace StackScript

open Cbor

/-- A constant as read from a file. -/
structure ConstantRecord where
  kind : Nat
  flag : Bool
  number : Float
  text : Option Bytes

/-- A chunk as read from a file. -/
structure ChunkRecord where
  magic : Bytes
  version : Nat
  name : Bytes
  code : Bytes
  lines : List Int
  constants : List ConstantRecord

/-- A constant record before any field is read. -/
def ConstantRecord.zero : ConstantRecord := ⟨0, false, 0, none⟩

/-- A chunk record before any field is read. -/
def ChunkRecord.zero : ChunkRecord := ⟨[], 0, [], [], [], []⟩

/-- Why an item could not be read into a record. -/
inductive ReadError where
  /-- An item of a CBOR type (`item`) that a field of type `target` cannot take; `field` is the
  record field it was read for, as the outermost record names it, and `detail` says more. -/
  | mismatch (item target : String) (field : Option String) (detail : Option String)
  /-- Any other error, by its text. -/
  | other (text : String)

namespace ReadError

/-- A mismatch with nothing more to say. -/
def plain (item target : String) : ReadError := .mismatch item target none none

/-- The error as met inside a record field: a mismatch is named after the field. -/
def within (field : String) : ReadError → ReadError
  | .mismatch item target _ detail => .mismatch item target (some field) detail
  | e => e

/-- The text of the error. -/
def message : ReadError → String
  | .mismatch item target field detail =>
    "cbor: cannot unmarshal " ++ item ++
      (match field with
        | some f => " into Go struct field " ++ f ++ " of type " ++ target
        | none => " into Go value of type " ++ target) ++
      (match detail with
        | some d => " (" ++ d ++ ")"
        | none => "")
  | .other t => t

end ReadError

namespace Codec

/-- The magic text that opens a chunk file. -/
def magic : String := "azura"

/-- The format version. -/
def version : Nat := 1

/-- The value of a bignum's bytes. -/
def bignum : Item → Nat
  | .bytes b => ofBigEndian b
  | _ => 0

/-- The bytes of a bignum. -/
def bignumBytes : Item → Bytes
  | .bytes b => b
  | _ => []

/-- The name of an item's type, as errors show it. -/
def typeName : Item → String
  | .unsigned _ => "positive integer"
  | .negative _ => "negative integer"
  | .bytes _ => "byte string"
  | .text _ => "UTF-8 text string"
  | .array _ => "array"
  | .map _ => "map"
  | .tag _ _ => "tag"
  | _ => "primitives"

/-- The name of the type of the item that a head byte opens. -/
def headName : Item → String
  | .float _ _ => "primitives"
  | i => typeName i

/-- The error for a tag whose content does not suit it: a date text for 0, a number for 1, bytes
for the bignums 2 and 3; other tags take anything. -/
def tagError (n : Nat) (c : Item) : Option String :=
  let got := headName c
  match n, c with
  | 0, .text _ => none
  | 0, _ => some ("cbor: tag number 0 must be followed by text string, got " ++ got)
  | 1, .unsigned _ | 1, .negative _ | 1, .float _ _ => none
  | 1, _ => some ("cbor: tag number 1 must be followed by integer or floating-point number, got " ++ got)
  | 2, .bytes _ | 3, .bytes _ => none
  | 2, _ | 3, _ => some ("cbor: tag number 2 or 3 must be followed by byte string, got " ++ got)
  | _, _ => none

/-- What an item holds, as a field meets it. -/
inductive Content where
  | unsigned (n : Nat)
  /-- The integer `-1 - n`. -/
  | negative (n : Nat)
  | float (x : Float)
  | flag (b : Bool)
  | null
  | bytes (b : Bytes)
  | text (b : Bytes)
  | array (xs : List Item)
  | map (es : List (Item × Item))

/-- The double of a float item of a width. -/
def floatOf : Width → Nat → Float
  | .half, b => Format.half.toFloat b
  | .single, b => Format.single.toFloat b
  | .double, b => Float.ofBits (UInt64.ofNat b)

/-- What an item holds for a field of type `target`, with the name of the item's type. Tags are
checked and looked through; a bignum is bytes for a sequence field and an integer for any other,
where one that is too large is an error; so is a negative integer below -2^63, for every field,
and a text that is not valid UTF-8. -/
def content (target : String) (sequence : Bool) : Item → Except ReadError (String × Content)
  | .unsigned n => pure ("positive integer", .unsigned n)
  | .negative n =>
    if n < Nat.pow 2 63 then pure ("negative integer", .negative n)
    else .error (.mismatch "negative integer" target none
      (some ("-" ++ toString (n + 1) ++ " overflows Go's int64")))
  | .bytes b => pure ("byte string", .bytes b)
  | .text cs =>
    if cs.all Bytes.isUtf8 then pure ("UTF-8 text string", .text cs.flatten)
    else .error (.other "cbor: invalid UTF-8 string")
  | .array xs => pure ("array", .array xs)
  | .map es => pure ("map", .map es)
  | .tag n c =>
    match tagError n c with
    | some e => .error (.other e)
    | none =>
      if n == 2 then
        if sequence then pure ("tag", .bytes (bignumBytes c))
        else if bignum c < Nat.pow 2 64 then pure ("tag", .unsigned (bignum c))
        else .error (.mismatch "tag" target none
          (some (toString (bignum c) ++ " overflows " ++ target)))
      else if n == 3 then
        if sequence then pure ("tag", .bytes (bignumBytes c))
        else if bignum c < Nat.pow 2 63 then pure ("tag", .negative (bignum c))
        else .error (.mismatch "tag" target none
          (some ("-" ++ toString (bignum c + 1) ++ " overflows " ++ target)))
      else content target sequence c
  | .simple 20 => pure ("primitives", .flag false)
  | .simple 21 => pure ("primitives", .flag true)
  | .simple 22 | .simple 23 => pure ("primitives", .null)
  | .simple n => pure ("primitives", .unsigned n)
  | .float w b => pure ("primitives", .float (floatOf w b))

/-- The error for an unsigned integer too large for a field. -/
def overflow (item target : String) (n : Nat) : ReadError :=
  .mismatch item target none (some (toString n ++ " overflows " ++ target))

/-- What a text field takes from an item; `none` leaves the field as it was. -/
def text (i : Item) : Except ReadError (Option Bytes) := do
  match ← content "string" false i with
  | (_, .text b) => pure (some b)
  | (_, .null) => pure none
  | (k, _) => .error (.plain k "string")

/-- What a field of a one-byte unsigned type, named `target`, takes from an item. -/
def byte (target : String) (i : Item) : Except ReadError (Option Nat) := do
  match ← content target false i with
  | (k, .unsigned n) => if n < 256 then pure (some n) else .error (overflow k target n)
  | (_, .null) => pure none
  | (k, _) => .error (.plain k target)

/-- What a 64-bit signed field takes from an item. -/
def int (i : Item) : Except ReadError (Option Int) := do
  match ← content "int" false i with
  | (k, .unsigned n) => if n < Nat.pow 2 63 then pure (some n) else .error (overflow k "int" n)
  | (_, .negative n) => pure (some (-1 - (n : Int)))
  | (_, .null) => pure none
  | (k, _) => .error (.plain k "int")

/-- The double that a negative integer `-1 - n` rounds to. -/
def negativeFloat (n : Nat) : Float := -Float.ofNat (n + 1)

/-- What a double field takes from an item. -/
def number (i : Item) : Except ReadError (Option Float) := do
  match ← content "float64" false i with
  | (_, .unsigned n) => pure (some (Float.ofNat n))
  | (_, .negative n) => pure (some (negativeFloat n))
  | (_, .float x) => pure (some x)
  | (_, .null) => pure none
  | (k, _) => .error (.plain k "float64")

/-- What a boolean field takes from an item. -/
def flag (i : Item) : Except ReadError (Option Bool) := do
  match ← content "bool" false i with
  | (_, .flag b) => pure (some b)
  | (_, .null) => pure none
  | (k, _) => .error (.plain k "bool")

/-- What an optional text field makes of an item: null leaves it absent; anything else gives
it a text (empty at first) that the item then sets. -/
def optionalText (i : Item) : Except ReadError (Option Bytes) :=
  match i with
  | .simple 22 | .simple 23 => pure none
  | _ => do pure (some ((← text i).getD []))

/-- Reads the items of an array into a sequence, one cell each, by a function from an item;
`none` leaves a cell at `zero`. -/
def cells {α : Type} (zero : α) (f : Item → Except ReadError (Option α)) :
    List Item → Except ReadError (List α)
  | [] => pure []
  | x :: xs => do
    let c ← f x
    let cs ← cells zero f xs
    pure (c.getD zero :: cs)

/-- What a byte sequence field takes from an item. -/
def bytes (i : Item) : Except ReadError Bytes := do
  match ← content "[]uint8" true i with
  | (_, .bytes b) => pure b
  | (_, .array xs) => do pure ((← cells 0 (fun x => do pure ((← byte "uint8" x).map UInt8.ofNat)) xs))
  | (_, .null) => pure []
  | (k, _) => .error (.plain k "[]uint8")

/-- What an integer sequence field takes from an item. -/
def ints (i : Item) : Except ReadError (List Int) := do
  match ← content "[]int" true i with
  | (_, .array xs) => cells 0 int xs
  | (_, .null) => pure []
  | (k, _) => .error (.plain k "[]int")

/-- The number that bytes spell in decimal digits, without a leading zero. -/
def decimalName? (b : Bytes) : Option Nat :=
  match b with
  | [] => none
  | d :: rest =>
    if !b.all (fun c => 48 ≤ c && c ≤ 57) || (d == 48 && !rest.isEmpty) then none
    else some (b.foldl (fun n c => n * 10 + (c.toNat - 48)) 0)

/-- The field number that a map key names, or `none` for a key that names no field. An integer
names the field of its number, a text the field whose number it spells in decimal. Keys that
are neither integers nor text are errors. -/
def fieldKey : Item → Except ReadError (Option Nat)
  | .text cs =>
    if cs.all Bytes.isUtf8 then pure (decimalName? cs.flatten)
    else .error (.other "cbor: invalid UTF-8 string")
  | .unsigned n => pure (some n)
  | .negative n =>
    if n < Nat.pow 2 63 then pure none
    else .error (.mismatch "negative integer" "int64" none
      (some ("-1-" ++ toString n ++ " overflows Go's int64")))
  | k => .error (.mismatch (typeName k) "string" none
      (some ("map key is of type " ++ typeName k ++ " and cannot be used to match struct field name")))

/-- Reads map entries into a record named `owner` by a function that sets the field a key
names. The first key that names a field sets it; later keys naming it are skipped. A mismatch
in a field is named after the field. -/
def readEntries {α : Type} (owner : String) (set : α → Nat → Item → Except ReadError α) :
    α → List Nat → List (Item × Item) → Except ReadError α
  | r, _, [] => pure r
  | r, found, (k, v) :: es => do
    match ← fieldKey k with
    | some n =>
      if found.contains n then readEntries owner set r found es
      else
        let r ← (set r n v).mapError (ReadError.within (owner ++ "." ++ toString n))
        readEntries owner set r (n :: found) es
    | none => readEntries owner set r found es

/-- What a record field named `owner` makes of an item: a map sets fields, null leaves it. -/
def record {α : Type} (owner : String) (set : α → Nat → Item → Except ReadError α) (i : Item)
    (r : α) : Except ReadError α := do
  match ← content owner false i with
  | (_, .map es) => readEntries owner set r [] es
  | (_, .null) => pure r
  | (k, .array _) => .error (.mismatch k owner none
      (some "cannot decode CBOR array to struct without toarray option"))
  | (k, _) => .error (.plain k owner)

/-- Sets the field of a constant record that a key names. -/
def setConstant (r : ConstantRecord) (k : Nat) (v : Item) : Except ReadError ConstantRecord :=
  match k with
  | 1 => do pure { r with kind := (← byte "value.Kind" v).getD r.kind }
  | 2 => do pure { r with flag := (← flag v).getD r.flag }
  | 3 => do pure { r with number := (← number v).getD r.number }
  | 4 => do pure { r with text := ← optionalText v }
  | _ => pure r

/-- What the constants field takes from an item. -/
def constants (i : Item) : Except ReadError (List ConstantRecord) := do
  match ← content "[]bytecode.wireValue" true i with
  | (_, .array xs) =>
    cells .zero (fun x => do pure (some (← record "bytecode.wireValue" setConstant x .zero))) xs
  | (_, .null) => pure []
  | (k, _) => .error (.plain k "[]bytecode.wireValue")

/-- Sets the field of a chunk record that a key names. -/
def setChunk (r : ChunkRecord) (k : Nat) (v : Item) : Except ReadError ChunkRecord :=
  match k with
  | 1 => do pure { r with magic := (← text v).getD r.magic }
  | 2 => do pure { r with version := (← byte "uint8" v).getD r.version }
  | 3 => do pure { r with name := (← text v).getD r.name }
  | 4 => do pure { r with code := ← bytes v }
  | 5 => do pure { r with lines := ← ints v }
  | 6 => do pure { r with constants := ← constants v }
  | _ => pure r

end Codec

/-- Reads the chunk record that a file holds. -/
def ChunkRecord.read (data : Bytes) : Except ReadError ChunkRecord := do
  let item ← (Item.read data).mapError .other
  Codec.record "bytecode.wireChunk" Codec.setChunk item .zero

/-- Why a chunk file could not be loaded: it is not a CBOR chunk record, or the record fails a
check. -/
inductive LoadError where
  | undecodable (detail : String)
  | malformed (detail : String)

/-- The message of a load error. -/
def LoadError.message : LoadError → String
  | .undecodable d => "bytecode: unmarshal chunk: " ++ d
  | .malformed d => "bytecode: malformed chunk: " ++ d

namespace ConstantRecord

/-- The value a constant record stands for, its string interned through the heap (the
interner); without an interner a string constant is an error. -/
def toValue (r : ConstantRecord) (heap : Option Heap) : Option Heap × Except String Value :=
  match r.kind with
  | 0 => (heap, .ok .nil)
  | 1 => (heap, .ok (.bool r.flag))
  | 2 => (heap, .ok (.number r.number))
  | 3 =>
    match r.text, heap with
    | none, _ => (heap, .error "object constant without string payload")
    | some _, none => (heap, .error "no interner for string constant")
    | some t, some h => let (h, s) := h.intern t; (some h, .ok (.obj (.str s)))
  | k => (heap, .error ("unknown kind " ++ toString k))

end ConstantRecord

namespace ChunkRecord

/-- Adds the constants to a chunk in order, stopping at the first that fails. -/
def addConstants (heap : Option Heap) (c : Chunk) :
    Nat → List ConstantRecord → Option Heap × Except LoadError Chunk
  | _, [] => (heap, .ok c)
  | i, r :: rs =>
    match r.toValue heap with
    | (heap, .error e) => (heap, .error (.malformed ("constant " ++ toString i ++ ": " ++ e)))
    | (heap, .ok v) => addConstants heap (c.addConstant v).1 (i + 1) rs

/-- The chunk a record stands for, after the record's checks. -/
def toChunk (r : ChunkRecord) (heap : Option Heap) : Option Heap × Except LoadError Chunk :=
  let code := r.code
  let lines := r.lines
  let constants := r.constants
  if r.magic != Bytes.ofString Codec.magic then
    (heap, .error (.malformed ("bad magic " ++ Bytes.quote r.magic)))
  else if r.version != Codec.version then
    (heap, .error (.malformed ("unsupported version " ++ toString r.version)))
  else if code.length != lines.length then
    (heap, .error (.malformed (toString code.length ++ " code bytes but " ++
      toString lines.length ++ " lines")))
  else if constants.length > Chunk.maxConstants then
    (heap, .error (.malformed (toString constants.length ++ " constants")))
  else
    let name := (Bytes.toString? r.name).getD ""
    addConstants heap ⟨name, code.toArray, lines.toArray, #[]⟩ 0 constants

end ChunkRecord

namespace Chunk

/-- Loads a chunk from a file's bytes, interning its strings through the heap when there is
one. -/
def load (data : Bytes) (heap : Option Heap) : Option Heap × Except LoadError Chunk :=
  match ChunkRecord.read data with
  | .error e => (heap, .error (.undecodable e.message))
  | .ok r => r.toChunk heap

/-- The record item of a constant, or the name of its type when it cannot be stored. -/
def constantItem : Value → Except String Item
  | .nil => pure (.map [(.unsigned 1, .unsigned 0), (.unsigned 3, .ofFloat 0)])
  | .bool b => pure (.map ([(.unsigned 1, .unsigned 1)] ++ (if b then [(.unsigned 2, .bool true)] else []) ++
      [(.unsigned 3, .ofFloat 0)]))
  | .number x => pure (.map [(.unsigned 1, .unsigned 2), (.unsigned 3, .ofFloat x)])
  | .obj (.str s) => pure (.map [(.unsigned 1, .unsigned 3), (.unsigned 3, .ofFloat 0),
      (.unsigned 4, .ofText s.chars)])
  | v => .error v.typeName

/-- The record items of constants, from index `i` on. -/
def constantItems : Nat → List Value → Except String (List Item)
  | _, [] => pure []
  | i, v :: vs =>
    match constantItem v with
    | .error t => .error ("bytecode: constant " ++ toString i ++ ": cannot encode " ++ t)
    | .ok x => do pure (x :: (← constantItems (i + 1) vs))

/-- The record item of a chunk. -/
def toItem (c : Chunk) : Except String Item := do
  let constants ← constantItems 0 c.constants.toList
  pure (.map ([(.unsigned 1, .ofText (Bytes.ofString Codec.magic)), (.unsigned 2, .unsigned Codec.version)] ++
    (if c.name.isEmpty then [] else [(.unsigned 3, .ofText (Bytes.ofString c.name))]) ++
    [(.unsigned 4, if c.code.isEmpty then .null else .bytes c.code.toList),
     (.unsigned 5, if c.lines.isEmpty then .null else .array (c.lines.toList.map Item.int))] ++
    (if constants.isEmpty then [] else [(.unsigned 6, .array constants)])))

/-- The bytes of a chunk file. -/
def store (c : Chunk) : Except String Bytes := do pure (← c.toItem).encode

end Chunk

end StackScript
