import StackScript.Bytecode.Op
import StackScript.Value

/-! # Chunks

A chunk is compiled code: a name, the code bytes, the source line of each code byte, and the
constant pool. A pool holds at most 256 constants that instructions can name, since an operand
is one byte.
-/

namespace StackScript

/-- Compiled code with its lines and constants. -/
structure Chunk where
  name : String
  code : Array UInt8
  lines : Array Int
  constants : Array Value
deriving Inhabited

namespace Chunk

/-- The largest pool an operand byte can index. -/
def maxConstants : Nat := 256

/-- An empty chunk with a name. -/
def named (name : String) : Chunk := ⟨name, #[], #[], #[]⟩

/-- Appends a code byte with its line. -/
def write (c : Chunk) (b : UInt8) (line : Int) : Chunk :=
  { c with code := c.code.push b, lines := c.lines.push line }

/-- Appends a constant; answers the chunk and the constant's index. -/
def addConstant (c : Chunk) (v : Value) : Chunk × Nat :=
  ({ c with constants := c.constants.push v }, c.constants.size)

/-- The line of a code offset; 0 outside the recorded lines. -/
def lineAt (c : Chunk) (offset : Int) : Int :=
  if offset < 0 then 0 else c.lines.getD offset.toNat 0

/-- The constant at an index, if there is one. -/
def constant? (c : Chunk) (i : Int) : Option Value :=
  if i < 0 then none else c.constants[i.toNat]?

/-- The chunk with its code, lines and constants dropped; the name stays. -/
def free (c : Chunk) : Chunk := named c.name

end Chunk

end StackScript
