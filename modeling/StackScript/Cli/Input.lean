import StackScript.Text.Space

/-! # Reading the prompt's input

The prompt reads standard input a line at a time, in one of two ways. Through the line editor,
a line is read into a buffer of 4096 bytes: a longer line arrives in pieces that fill the
buffer (a carriage return that would end a piece is kept for the next one), and a line feed,
with a carriage return before it, is dropped. Through the plain scanner, a line of 65536 bytes
or more is an error, and the line feed and one carriage return before it are dropped.

A line is then trimmed of white space at both ends; a command is matched ignoring the case of
its letters.
-/

namespace StackScript

namespace Cli

/-- The size of the line editor's buffer. -/
def editorBuffer : Nat := 4096

/-- The longest line the plain scanner takes, plus one. -/
def scannerLimit : Nat := 65536

/-- Drops a line feed at the end, and a carriage return before it. -/
def dropLineEnd (b : Bytes) : Bytes :=
  match b.reverse with
  | 10 :: 13 :: rest => rest.reverse
  | 10 :: rest => rest.reverse
  | _ => b

/-- The pieces the line editor reads from what is left of a line (with its line feed, when it
has one), `fuel` bounding their number. -/
def piecesOf : Nat → Bytes → Bool → List Bytes
  | 0, _, _ => []
  | fuel + 1, rest, ended =>
    if rest.isEmpty then []
    else if (ended && rest.length ≤ editorBuffer) || (!ended && rest.length < editorBuffer) then
      [dropLineEnd rest]
    else
      let full := rest.take editorBuffer
      if full.getLast? == some 13 then
        full.dropLast :: piecesOf fuel (rest.drop (editorBuffer - 1)) ended
      else full :: piecesOf fuel (rest.drop editorBuffer) ended

/-- The pieces the line editor reads for one line of input, given without its line feed;
`ended` says whether a line feed ended it. -/
def editorPieces (line : Bytes) (ended : Bool) : List Bytes :=
  let rest := if ended then line ++ [10] else line
  piecesOf (rest.length + 1) rest ended

/-- The line the plain scanner reads for one line of input, or none when it is too long. -/
def scannerLine (line : Bytes) : Option Bytes :=
  if line.length ≥ scannerLimit then none
  else match line.reverse with
    | 13 :: rest => some rest.reverse
    | _ => some line

/-- A command with its letters in lower case: the ASCII capitals, the capital I with a dot
(which lowers to `i`) and the Kelvin sign (which lowers to `k`). -/
def lowerCommand : Bytes → Bytes
  | 0xC4 :: 0xB0 :: rest => 105 :: lowerCommand rest
  | 0xE2 :: 0x84 :: 0xAA :: rest => 107 :: lowerCommand rest
  | b :: rest => (if 65 ≤ b && b ≤ 90 then b + 32 else b) :: lowerCommand rest
  | [] => []

end Cli

end StackScript
