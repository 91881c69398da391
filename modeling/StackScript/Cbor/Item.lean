import StackScript.Number.Width
import StackScript.Text.Bytes

/-! # CBOR data items

A CBOR data item (RFC 8949) as it stands on the wire. Text strings keep their chunks, because
each chunk of an indefinite-length text string has to be valid UTF-8 by itself; floating-point
items keep their width and bits. Writing an item uses the shortest head for every argument and
definite lengths throughout, which with map entries given in key order is the canonical form.
-/

namespace StackScript

namespace Cbor

/-- The width of a floating-point item. -/
inductive Width where
  | half
  | single
  | double
deriving DecidableEq, Repr

/-- A CBOR data item. `negative n` is the integer `-1 - n`; `simple n` is a simple value other
than a float (20 and 21 are false and true, 22 null, 23 undefined). -/
inductive Item where
  | unsigned (n : Nat)
  | negative (n : Nat)
  | bytes (b : Bytes)
  | text (chunks : List Bytes)
  | array (items : List Item)
  | map (entries : List (Item × Item))
  | tag (number : Nat) (content : Item)
  | simple (n : Nat)
  | float (width : Width) (bits : Nat)

/-- The last `n` bytes of a number, most significant first. -/
def bigEndian : Nat → Nat → Bytes
  | 0, _ => []
  | n + 1, v => bigEndian n (v / 256) ++ [UInt8.ofNat (v % 256)]

/-- The head of an item of major type `major` with argument `n`, in its shortest form. -/
def head (major n : Nat) : Bytes :=
  let base := major * 32
  if n < 24 then [UInt8.ofNat (base + n)]
  else if n < Nat.pow 2 8 then UInt8.ofNat (base + 24) :: bigEndian 1 n
  else if n < Nat.pow 2 16 then UInt8.ofNat (base + 25) :: bigEndian 2 n
  else if n < Nat.pow 2 32 then UInt8.ofNat (base + 26) :: bigEndian 4 n
  else UInt8.ofNat (base + 27) :: bigEndian 8 n

/-- The null item. -/
def Item.null : Item := .simple 22

/-- A boolean item. -/
def Item.bool (b : Bool) : Item := .simple (if b then 21 else 20)

/-- A text item of one chunk. -/
def Item.ofText (b : Bytes) : Item := .text [b]

/-- An integer item. -/
def Item.int (n : Int) : Item := if n < 0 then .negative (-1 - n).toNat else .unsigned n.toNat

/-- A double as the narrowest float item that holds it exactly: NaN as the half-precision quiet
NaN, infinities in half precision, other values in half precision when that is exact, else in
single precision when that is exact, else as a double. -/
def Item.ofFloat (x : Float) : Item :=
  if x.isNaN then .float .half 0x7e00
  else if x.isInf then .float .half (if x > 0 then 0x7c00 else 0xfc00)
  else match Format.half.encode? x with
    | some h => .float .half h
    | none =>
      match Format.single.encode? x with
      | some s => .float .single s
      | none => .float .double x.toBits.toNat

mutual

/-- The bytes of an item. -/
def Item.encode : Item → Bytes
  | .unsigned n => head 0 n
  | .negative n => head 1 n
  | .bytes b => head 2 b.length ++ b
  | .text cs => head 3 cs.flatten.length ++ cs.flatten
  | .array xs => head 4 xs.length ++ Item.encodeAll xs
  | .map es => head 5 es.length ++ Item.encodeEntries es
  | .tag n c => head 6 n ++ c.encode
  | .simple n => if n < 24 then [UInt8.ofNat (224 + n)] else [0xf8, UInt8.ofNat n]
  | .float .half b => 0xf9 :: bigEndian 2 b
  | .float .single b => 0xfa :: bigEndian 4 b
  | .float .double b => 0xfb :: bigEndian 8 b

/-- The bytes of items one after another. -/
def Item.encodeAll : List Item → Bytes
  | [] => []
  | x :: xs => x.encode ++ Item.encodeAll xs

/-- The bytes of map entries, each key before its value. -/
def Item.encodeEntries : List (Item × Item) → Bytes
  | [] => []
  | (k, v) :: es => k.encode ++ v.encode ++ Item.encodeEntries es

end

end Cbor

end StackScript
