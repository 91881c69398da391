import StackScript.Cbor.Item

/-! # Reading CBOR

Reads the one well-formed data item that makes up an input. Rejected are: an empty or truncated
input; additional information 28 to 30; a two-byte simple value below 32; an indefinite length
on an integer or a tag; a break code where an item is due; a chunk of an indefinite-length
string that has another major type or an indefinite length itself; more than 32 levels of
nested arrays, maps and tags (a tag directly inside a tag counts as a level, the outermost tag
does not); a length of 2^63 or more; an array or map of more than 131072 entries; and bytes
after the item.

Every read consumes at least one byte and every step of the mutual recursion spends one unit of
fuel, so twice the input's length (plus two) is enough fuel for any input.
-/

namespace StackScript

namespace Cbor

/-- The head of a data item: its major type, additional information and argument (zero for an
indefinite length). -/
structure Head where
  major : Nat
  info : Nat
  argument : Nat

/-- Whether the head opens an item of indefinite length. -/
def Head.indefinite (h : Head) : Bool := h.info == 31

/-- The name of a major type, as errors show it. -/
def majorName : Nat → String
  | 0 => "positive integer"
  | 1 => "negative integer"
  | 2 => "byte string"
  | 3 => "UTF-8 text string"
  | 4 => "array"
  | 5 => "map"
  | 6 => "tag"
  | _ => "primitives"

/-- A number from bytes, most significant first. -/
def ofBigEndian (bs : Bytes) : Nat := bs.foldl (fun n b => n * 256 + b.toNat) 0

/-- Reads a head. -/
def Head.read : Bytes → Except String (Head × Bytes)
  | [] => .error "unexpected EOF"
  | b :: rest =>
    let major := b.toNat / 32
    let info := b.toNat % 32
    if info < 24 then pure (⟨major, info, info⟩, rest)
    else if info ≤ 27 then
      let n := Nat.pow 2 (info - 24)
      if rest.length < n then .error "unexpected EOF"
      else pure (⟨major, info, ofBigEndian (rest.take n)⟩, rest.drop n)
    else if info == 31 then
      if major == 0 || major == 1 || major == 6 then
        .error ("cbor: invalid additional information 31 for type " ++ majorName major)
      else if major == 7 then .error "cbor: unexpected \"break\" code"
      else pure (⟨major, 31, 0⟩, rest)
    else .error ("cbor: invalid additional information " ++ toString info ++ " for type " ++
      majorName major)

/-- The deepest nesting accepted. -/
def maxDepth : Nat := 32

/-- The most entries an array or map may have. -/
def maxEntries : Nat := 131072

/-- Whether the input starts with a break code. -/
def startsWithBreak : Bytes → Bool
  | 0xff :: _ => true
  | _ => false

/-- The error for nesting beyond the limit. -/
def tooDeep : String := "cbor: exceeded max nested level " ++ toString maxDepth

/-- The error for a length that does not fit a signed 64-bit count. -/
def tooLong (major n : Nat) : String :=
  "cbor: " ++ majorName major ++ " length " ++ toString n ++ " is too large, causing integer overflow"

/-- Takes the `n` bytes of content of a string of a major type. -/
def takeContent (major n : Nat) (bs : Bytes) : Except String (Bytes × Bytes) :=
  if n ≥ Nat.pow 2 63 then .error (tooLong major n)
  else if bs.length < n then .error "unexpected EOF" else pure (bs.take n, bs.drop n)

mutual

/-- Reads one item at a nesting depth; `afterTag` says that it is the content of a tag. -/
def readItem : Nat → Nat → Bool → Bytes → Except String (Item × Bytes)
  | 0, _, _, _ => .error tooDeep
  | fuel + 1, depth, afterTag, bs => do
    let (h, rest) ← Head.read bs
    match h.major with
    | 0 => pure (.unsigned h.argument, rest)
    | 1 => pure (.negative h.argument, rest)
    | 2 | 3 =>
      let (chunks, rest) ← if h.indefinite then readChunks fuel h.major rest
        else do let (c, rest) ← takeContent h.major h.argument rest; pure ([c], rest)
      pure (if h.major == 2 then .bytes chunks.flatten else .text chunks, rest)
    | 4 | 5 =>
      if depth + 1 > maxDepth then .error tooDeep
      else if h.argument ≥ Nat.pow 2 63 then .error (tooLong h.major h.argument)
      else if h.argument > maxEntries then
        .error (if h.major == 4 then
            "cbor: exceeded max number of elements " ++ toString maxEntries ++ " for CBOR array"
          else "cbor: exceeded max number of key-value pairs " ++ toString maxEntries ++ " for CBOR map")
      else
        let width := if h.major == 4 then 1 else 2
        let (xs, rest) ← if h.indefinite then readUntilBreak fuel (depth + 1) width rest
          else readCount fuel (depth + 1) (h.argument * width) rest
        pure (if h.major == 4 then .array xs else .map (pairUp xs), rest)
    | 6 =>
      let depth := if afterTag then depth + 1 else depth
      if depth > maxDepth then .error tooDeep
      else do
        let (c, rest) ← readItem fuel depth true rest
        pure (.tag h.argument c, rest)
    | _ =>
      if h.info < 24 then pure (.simple h.info, rest)
      else if h.info == 24 then
        if h.argument < 32 then
          .error ("cbor: invalid simple value " ++ toString h.argument ++ " for type primitives")
        else pure (.simple h.argument, rest)
      else if h.info == 25 then pure (.float .half h.argument, rest)
      else if h.info == 26 then pure (.float .single h.argument, rest)
      else pure (.float .double h.argument, rest)

/-- Reads `n` items. -/
def readCount : Nat → Nat → Nat → Bytes → Except String (List Item × Bytes)
  | 0, _, _, _ => .error tooDeep
  | _ + 1, _, 0, bs => pure ([], bs)
  | fuel + 1, depth, n + 1, bs => do
    let (x, rest) ← readItem fuel depth false bs
    let (xs, rest) ← readCount fuel depth n rest
    pure (x :: xs, rest)

/-- Reads groups of `width` items up to a break code, which it consumes; a break inside a group
is an error. -/
def readUntilBreak : Nat → Nat → Nat → Bytes → Except String (List Item × Bytes)
  | 0, _, _, _ => .error tooDeep
  | fuel + 1, depth, width, bs =>
    if bs.isEmpty then .error "unexpected EOF"
    else if startsWithBreak bs then pure ([], bs.drop 1)
    else do
      let (x, rest) ← readCount fuel depth width bs
      let (xs, rest) ← readUntilBreak fuel depth width rest
      pure (x ++ xs, rest)

/-- Reads the chunks of an indefinite-length string of a major type up to a break code. -/
def readChunks : Nat → Nat → Bytes → Except String (List Bytes × Bytes)
  | 0, _, _ => .error tooDeep
  | fuel + 1, major, bs =>
    if bs.isEmpty then .error "unexpected EOF"
    else if startsWithBreak bs then pure ([], bs.drop 1)
    else do
      let (h, rest) ← Head.read bs
      if h.major != major then
        .error ("cbor: wrong element type " ++ majorName h.major ++ " for indefinite-length " ++
          majorName major)
      else if h.indefinite then
        .error ("cbor: indefinite-length " ++ majorName major ++ " chunk is not definite-length")
      else do
        let (c, rest) ← takeContent major h.argument rest
        let (cs, rest) ← readChunks fuel major rest
        pure (c :: cs, rest)

/-- Pairs up a flat list of keys and values. -/
def pairUp : List Item → List (Item × Item)
  | k :: v :: rest => (k, v) :: pairUp rest
  | _ => []

end

/-- Reads an input that is exactly one well-formed item. -/
def Item.read (bs : Bytes) : Except String Item :=
  if bs.isEmpty then .error "EOF"
  else do
    let (item, rest) ← readItem (2 * bs.length + 2) 0 false bs
    if rest.isEmpty then pure item
    else .error ("cbor: " ++ toString rest.length ++ " bytes of extraneous data starting at index " ++
      toString (bs.length - rest.length))

end Cbor

end StackScript
