import StackScript.Text.Bytes

/-! # Instructions

The twenty-one instructions of the machine, numbered 0 to 20. Four of them take a constant
index as their one operand byte and two take a stack slot; each instruction needs a number of
values on the stack and leaves a number of values in their place. Bytes from 21 up are no
instruction; their name is the byte in hexadecimal.
-/

namespace StackScript

/-- The instructions, in the order of their byte codes. -/
inductive Op where
  | constant | nil | falseLit | trueLit | pop | equal | greater | less | add | subtract
  | multiply | divide | not | negate | info | getLocal | setLocal | getGlobal | setGlobal
  | defineGlobal | ret
deriving DecidableEq, Repr, Inhabited

namespace Op

/-- Every instruction, in byte-code order. -/
def all : List Op :=
  [constant, nil, falseLit, trueLit, pop, equal, greater, less, add, subtract, multiply, divide,
   not, negate, info, getLocal, setLocal, getGlobal, setGlobal, defineGlobal, ret]

/-- The byte code of an instruction. -/
def code : Op → UInt8
  | constant => 0 | nil => 1 | falseLit => 2 | trueLit => 3 | pop => 4 | equal => 5
  | greater => 6 | less => 7 | add => 8 | subtract => 9 | multiply => 10 | divide => 11
  | not => 12 | negate => 13 | info => 14 | getLocal => 15 | setLocal => 16 | getGlobal => 17
  | setGlobal => 18 | defineGlobal => 19 | ret => 20

/-- The instruction with a byte code. -/
def ofByte? (b : UInt8) : Option Op := all[b.toNat]?

/-- The name of an instruction. -/
def name : Op → String
  | constant => "OP_CONSTANT" | nil => "OP_NIL" | falseLit => "OP_FALSE" | trueLit => "OP_TRUE"
  | pop => "OP_POP" | equal => "OP_EQUAL" | greater => "OP_GREATER" | less => "OP_LESS"
  | add => "OP_ADD" | subtract => "OP_SUBTRACT" | multiply => "OP_MULTIPLY"
  | divide => "OP_DIVIDE" | not => "OP_NOT" | negate => "OP_NEGATE" | info => "OP_INFO"
  | getLocal => "OP_GET_LOCAL" | setLocal => "OP_SET_LOCAL" | getGlobal => "OP_GET_GLOBAL"
  | setGlobal => "OP_SET_GLOBAL" | defineGlobal => "OP_DEFINE_GLOBAL" | ret => "OP_RETURN"

/-- The number of operand bytes after the instruction. -/
def operands : Op → Nat
  | constant | getLocal | setLocal | getGlobal | setGlobal | defineGlobal => 1
  | _ => 0

/-- The number of values the instruction takes from the stack. -/
def pops : Op → Nat
  | pop | not | negate | info | setLocal | setGlobal | defineGlobal => 1
  | equal | greater | less | add | subtract | multiply | divide => 2
  | _ => 0

/-- The number of values the instruction leaves on the stack in place of those it takes. -/
def pushes : Op → Nat
  | constant | nil | falseLit | trueLit | equal | greater | less | add | subtract | multiply
  | divide | not | negate | getLocal | setLocal | getGlobal | setGlobal => 1
  | _ => 0

/-- Whether the operand is an index into the constant pool. -/
def usesConstant : Op → Bool
  | constant | getGlobal | setGlobal | defineGlobal => true
  | _ => false

end Op

/-- The name of a byte as an instruction: the instruction's name, or `OP_0x` and the byte in
upper-case hexadecimal. -/
def opName (b : UInt8) : String :=
  match Op.ofByte? b with
  | some op => op.name
  | none => "OP_0x" ++ Bytes.hexUpper b.toNat

end StackScript
