import StackScript.Json
import StackScript.Text.Space

/-! # The language server's wire

Messages travel as frames: header lines ended by a carriage return and a line feed, a blank
line, then a body of as many bytes as the `Content-Length: ` header says (a decimal below
`2^32`, the last such header counting). A frame without that header, with a length of zero, a
bad length, or a line ended otherwise is broken, and so is the stream from there on.

A body holds one JSON value (what follows it is ignored); its text is read as UTF-8, each byte
that does not begin a well-formed character becoming U+FFFD. An object with a string `method`
is a request, a notification when its `id` is missing or null; one with a `result` or a non-null
`error` instead is a reply, which the server ignores. Anything else, an `id` that is neither a
string nor an unsigned 64-bit integer, and a batch are broken messages. Field names match
exactly or ignoring case, and the last of several with one name counts.

Parameters are checked against the shape of the structure they fill, the first mismatch in the
text's order being the error the request fails with.

What the server sends is written as compact JSON with `<`, `>` and `&` escaped.
-/

namespace StackScript

namespace Lsp

/-- Decodes UTF-8 onto the characters read so far (in reverse), each byte that does not begin a
well-formed character becoming U+FFFD. -/
def decodeInto (acc : List Char) : Bytes → List Char
  | [] => acc
  | b :: r =>
    if b < 0x80 then decodeInto (Char.ofNat b.toNat :: acc) r
    else
      match Bytes.leadRune b r with
      | some (c, n) => decodeInto (c :: acc) (r.drop n)
      | none => decodeInto ('�' :: acc) r
termination_by bs => bs.length
decreasing_by all_goals simp only [List.length_drop, List.length_cons]; omega

/-- UTF-8 text, each ill-formed byte becoming U+FFFD. -/
def lossy (b : Bytes) : String := String.ofList (decodeInto [] b).reverse

/-- What the input holds next. -/
inductive Frame where
  /-- More input is needed. -/
  | wait
  /-- The stream cannot be read on. -/
  | broken
  | body (content : Bytes) (rest : Bytes)

/-- The header that gives a body's length. -/
def lengthHeader : Bytes := Bytes.ofString "Content-Length: "

/-- A body length: decimal digits of a number below `2^32`. -/
def readLength (s : Bytes) : Option Nat :=
  if s.isEmpty || !s.all (fun b => 48 ≤ b && b ≤ 57) then none
  else
    let n := s.foldl (fun a b => a * 10 + (b.toNat - 48)) 0
    if n < Nat.pow 2 32 then some n else none

/-- Reads the header lines and the body of a frame; `ended` says whether the input has ended,
`fuel` bounds the lines read. -/
def readFrame (ended : Bool) : Nat → Bytes → Option Nat → Frame
  | 0, _, _ => .wait
  | fuel + 1, bs, length =>
    match bs.idxOf? 13 with
    | none => if ended then .broken else .wait
    | some i =>
      match bs[i + 1]? with
      | none => if ended then .broken else .wait
      | some b =>
        if b != 10 then .broken
        else
          let line := bs.take (i + 1)
          let rest := bs.drop (i + 2)
          if line == [13] then
            match length with
            | some n =>
              if n == 0 then .broken
              else if rest.length ≥ n then .body (rest.take n) (rest.drop n)
              else if ended then .broken else .wait
            | none => .broken
          else if line.take lengthHeader.length == lengthHeader then
            match readLength (Bytes.trimSpace (line.drop lengthHeader.length)) with
            | some n => readFrame ended fuel rest (some n)
            | none => .broken
          else readFrame ended fuel rest length

/-- The next frame of the input. -/
def nextFrame (ended : Bool) (bs : Bytes) : Frame := readFrame ended (bs.length + 1) bs none

/-- How many more bytes the body of the frame under way needs, once its header lines are all
read; `fuel` bounds the lines read. -/
def missingBody : Nat → Bytes → Option Nat → Option Nat
  | 0, _, _ => none
  | fuel + 1, bs, length =>
    match bs.idxOf? 13 with
    | none => none
    | some i =>
      if bs[i + 1]? != some 10 then none
      else
        let line := bs.take (i + 1)
        let rest := bs.drop (i + 2)
        if line == [13] then
          match length with
          | some n => if rest.length < n then some (n - rest.length) else none
          | none => none
        else if line.take lengthHeader.length == lengthHeader then
          missingBody fuel rest (readLength (Bytes.trimSpace (line.drop lengthHeader.length)))
        else missingBody fuel rest length

/-- The JSON value at the start of a body. -/
def bodyValue (content : Bytes) : Option Json :=
  let cs := (lossy content).toList
  (Json.readValue (cs.length + 1) cs).map (·.1)

/-- A character as compact JSON writes it inside a string. -/
def escapeChar (c : Char) : String :=
  if c == '"' then "\\\"" else if c == '\\' then "\\\\"
  else if c == '\n' then "\\n" else if c == '\r' then "\\r" else if c == '\t' then "\\t"
  else if c.toNat < 0x20 || c == '<' || c == '>' || c == '&' || c.toNat == 0x2028 || c.toNat == 0x2029 then
    "\\u" ++ Bytes.hexLower (c.toNat / 256) ++ Bytes.hexLower (c.toNat % 256)
  else c.toString

/-- A string as compact JSON writes it. -/
def quote (s : String) : String := "\"" ++ String.join (s.toList.map escapeChar) ++ "\""

mutual

/-- A value as compact JSON. -/
def encode : Json → String
  | .null => "null"
  | .bool b => if b then "true" else "false"
  | .num m e => Json.numText m e
  | .str s => quote s
  | .arr items => "[" ++ encodeItems items ++ "]"
  | .obj fields => "\x7b" ++ encodeFields fields ++ "\x7d"

/-- Array items as compact JSON. -/
def encodeItems : List Json → String
  | [] => ""
  | [x] => encode x
  | x :: xs => encode x ++ "," ++ encodeItems xs

/-- Object fields as compact JSON. -/
def encodeFields : List (String × Json) → String
  | [] => ""
  | [(k, v)] => quote k ++ ":" ++ encode v
  | (k, v) :: fs => quote k ++ ":" ++ encode v ++ "," ++ encodeFields fs

end

/-- A message in a frame. -/
def frame (j : Json) : Bytes :=
  let body := Bytes.ofString (encode j)
  Bytes.ofString ("Content-Length: " ++ toString body.length ++ "\r\n\r\n") ++ body

/-- Whether two letters are equal ignoring case, the Kelvin sign being `k` and the long s
being `s`. -/
def sameLetter (a b : Char) : Bool :=
  let fold (c : Char) : Char :=
    if c.toNat == 0x212A then 'k' else if c.toNat == 0x17F then 's' else c.toLower
  fold a == fold b

/-- Whether a key names a field. -/
def sameKey (key name : String) : Bool :=
  key.length == name.length && (key.toList.zip name.toList).all fun (x, y) => sameLetter x y

/-- The last value given for a field. -/
def field? (fields : List (String × Json)) (name : String) : Option Json :=
  (fields.reverse.find? (sameKey ·.1 name)).map (·.2)

/-- The last value other than null given for a field. -/
def given? (fields : List (String × Json)) (name : String) : Option Json :=
  (fields.reverse.find? fun (k, v) => sameKey k name && v != .null).map (·.2)

/-- The identifier of a request. -/
inductive RequestId where
  | number (n : Nat)
  | text (s : String)

/-- The identifier as JSON. -/
def RequestId.toJson : RequestId → Json
  | .number n => .nat n
  | .text s => .str s

/-- A message the server reads. -/
inductive Incoming where
  | call (method : String) (id : RequestId) (params : Option Json)
  | notice (method : String) (params : Option Json)
  | reply
  | broken

/-- Whether a value may be the `id` of a reply. -/
def replyIdFits : Option Json → Bool
  | none | some .null | some (.str _) => true
  | some (.num m 0) => 0 ≤ m && m < Int.pow 2 64
  | some _ => false

/-- Whether a value may be the `error` of a reply. -/
def replyErrorFits : Option Json → Bool
  | none | some .null => true
  | some (.obj fs) =>
    (match field? fs "code" with
      | none | some .null => true
      | some (.num m 0) => -(Int.pow 2 63 : Int) ≤ m && m < Int.pow 2 63
      | some _ => false) &&
    (match field? fs "message" with
      | none | some .null | some (.str _) => true
      | some _ => false)
  | some _ => false

/-- What a message is. -/
def classify : Json → Incoming
  | .obj fs =>
    let isReply := (field? fs "result").isSome ||
      (match field? fs "error" with | none | some .null => false | some _ => true)
    match field? fs "method" with
    | some (.str name) =>
      if isReply then .broken
      else
        let params := field? fs "params"
        match field? fs "id" with
        | none | some .null => .notice name params
        | some (.str s) => .call name (.text s) params
        | some (.num m 0) => if 0 ≤ m && m < Int.pow 2 64 then .call name (.number m.toNat) params else .broken
        | some _ => .broken
    | none | some .null =>
      if isReply && replyIdFits (field? fs "id") && replyErrorFits (field? fs "error") then .reply
      else .broken
    | some _ => .broken
  | _ => .broken

/-- The shape of the structure a JSON value fills. -/
inductive Shape where
  | text
  /-- An unsigned 32-bit integer. -/
  | unsigned
  /-- A signed 32-bit integer. -/
  | signed
  | anything
  /-- A structure of the protocol: its name, then its fields by JSON name. -/
  | record (name : String) (fields : List (String × Shape))
  /-- A list: its type name, then the shape of its items. -/
  | list (typeName : String) (item : Shape)

/-- The name a type has in a decoding error. -/
def Shape.typeName : Shape → String
  | .text => "string"
  | .unsigned => "uint32"
  | .signed => "int32"
  | .anything => "interface \x7b\x7d"
  | .record n _ => "protocol." ++ n
  | .list t _ => t

/-- The name of a JSON value's kind in a decoding error. -/
def kindName : Json → String
  | .obj _ => "object"
  | .arr _ => "array"
  | .str _ => "string"
  | .num _ _ => "number"
  | .bool _ => "bool"
  | .null => "null"

/-- The innermost structure being filled and the path of fields from the root, when decoding
is inside a structure. -/
abbrev Where := Option (String × List String)

/-- A decoding error. -/
def mismatch (value type : String) : Where → String
  | some (owner, path) =>
    "json: cannot unmarshal " ++ value ++ " into Go struct field " ++ owner ++ "." ++
      ".".intercalate path ++ " of type " ++ type
  | none => "json: cannot unmarshal " ++ value ++ " into Go value of type " ++ type

/-- Whether an integer fits a shape of integer. -/
def fitsInteger (s : Shape) (m : Int) : Bool :=
  match s with
  | .unsigned => 0 ≤ m && m < Int.pow 2 32
  | .signed => -(Int.pow 2 31 : Int) ≤ m && m < Int.pow 2 31
  | _ => false

mutual

/-- The first error filling a shape with a value, if there is one. -/
def check (place : Where) : Shape → Json → Option String
  | _, .null => none
  | .anything, _ => none
  | .text, .str _ => none
  | .text, v => some (mismatch (kindName v) "string" place)
  | s@(.unsigned), .num m e | s@(.signed), .num m e =>
    if e == 0 && fitsInteger s m then none
    else some (mismatch ("number " ++ Json.numText m e) s.typeName place)
  | s@(.unsigned), v | s@(.signed), v => some (mismatch (kindName v) s.typeName place)
  | .record n fields, .obj entries =>
    let path := match place with
      | some (_, p) => p
      | none => []
    checkEntries n path fields entries
  | .list _ item, .arr items => checkItems place item items
  | s, v => some (mismatch (kindName v) s.typeName place)

/-- The first error filling a structure's fields from an object's entries, in their order. -/
def checkEntries (owner : String) (path : List String) (fields : List (String × Shape)) :
    List (String × Json) → Option String
  | [] => none
  | (k, v) :: rest =>
    match fields.find? (sameKey k ·.1) with
    | some (name, shape) =>
      match check (some (owner, path ++ [name])) shape v with
      | some e => some e
      | none => checkEntries owner path fields rest
    | none => checkEntries owner path fields rest

/-- The first error filling a list's items. -/
def checkItems (place : Where) (item : Shape) : List Json → Option String
  | [] => none
  | v :: rest =>
    match check place item v with
    | some e => some e
    | none => checkItems place item rest

end

/-- The first error filling a shape with the parameters of a message: missing parameters are an
error, null ones are not. -/
def checkParams (shape : Shape) : Option Json → Option String
  | none => some "unexpected end of JSON input"
  | some v => check none shape v

end Lsp

end StackScript
