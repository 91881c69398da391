import StackScript.Bytecode.Chunk

/-! # Listings

A listing shows a chunk one instruction a line: the offset in four digits, the source line in
four columns (or `   |` when it repeats the line of the byte before), the instruction's name,
and for an instruction with an operand, the operand in four columns after the name padded to
sixteen, followed for constant operands by the constant's text in quotes (`<invalid>` for an
index outside the pool). An unknown byte is listed as one byte. An instruction whose operand is
missing ends the listing with the error `unexpected end of bytecode`. A section starts with
`== name ==`; sections after the first are set off by an empty line.
-/

namespace StackScript

namespace Listing

/-- `s` right-aligned in `w` columns. -/
def padLeft (s : String) (w : Nat) : String :=
  String.ofList (List.replicate (w - s.length) ' ') ++ s

/-- `s` left-aligned in `w` columns. -/
def padRight (s : String) (w : Nat) : String :=
  s ++ String.ofList (List.replicate (w - s.length) ' ')

/-- An integer in at least `w` digits, zero-filled after the sign. -/
def zeroPad (n : Int) (w : Nat) : String :=
  let d := toString n.natAbs
  (if n < 0 then "-" else "") ++
    String.ofList (List.replicate (w - (d.length + if n < 0 then 1 else 0)) '0') ++ d

/-- The error for an instruction whose operand byte is missing. -/
def truncated : String := "unexpected end of bytecode"

/-- The line for the instruction at `offset`, the offset after it and the error that ends the
listing there, if any. -/
def instruction (c : Chunk) (offset : Int) : Bytes × Int × Option String :=
  if offset < 0 || offset ≥ c.code.size then
    ([], offset, some ("offset " ++ toString offset ++ " out of range"))
  else
    let o := offset.toNat
    let line := c.lineAt offset
    let head := zeroPad offset 4 ++ " " ++
      (if offset > 0 && line == c.lineAt (offset - 1) then "   | " else padLeft (toString line) 4 ++ " ")
    let b := c.code.getD o 0
    match Op.ofByte? b with
    | none => (Bytes.ofString (head ++ opName b ++ "\n"), offset + 1, none)
    | some op =>
      if op.operands = 0 then (Bytes.ofString (head ++ op.name ++ "\n"), offset + 1, none)
      else
        match c.code[o + 1]? with
        | none => (Bytes.ofString (head ++ op.name ++ "\n"), offset + 1, some truncated)
        | some operand =>
          let text := head ++ padRight op.name 16 ++ " " ++ padLeft (toString operand.toNat) 4
          if op.usesConstant then
            let shown := match c.constant? operand.toNat with
              | some v => v.text
              | none => Bytes.ofString "<invalid>"
            (Bytes.ofString (text ++ " '") ++ shown ++ Bytes.ofString "'\n", offset + 2, none)
          else (Bytes.ofString (text ++ "\n"), offset + 2, none)

/-- The lines of the instructions from `offset` on, within `fuel` instructions. -/
def instructionsFrom (c : Chunk) : Nat → Int → Bytes × Option String
  | 0, _ => ([], none)
  | fuel + 1, offset =>
    if offset ≥ c.code.size then ([], none)
    else
      match instruction c offset with
      | (text, _, some err) => (text, some err)
      | (text, next, none) =>
        let (rest, err) := instructionsFrom c fuel next
        (text ++ rest, err)

/-- A section: the header and every instruction. `started` says whether a section was written
before, which sets this one off by an empty line. -/
def chunkSection (c : Chunk) (name : String) (started : Bool) : Bytes × Option String :=
  let title := if name.isEmpty then (if c.name.isEmpty then "<script>" else c.name) else name
  let head := (if started then "\n" else "") ++ "== " ++ title ++ " ==\n"
  let (body, err) := instructionsFrom c c.code.size 0
  (Bytes.ofString head ++ body, err)

end Listing

end StackScript
