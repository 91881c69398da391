import StackScript.Value

/-! # Runtime errors

A runtime error has a kind, a message, the frame where it arose (the chunk's name, the line
of the instruction and its offset) and, for some kinds, a cause: the short reason behind the
message. Its text puts the place in front of the message, as `source:line`, the source alone or
`line N`, whichever the frame has; its report puts the message over `[line N] in script`.
-/

namespace StackScript

/-- The kinds of runtime error. -/
inductive FaultKind where
  | typeMismatch
  | undefinedVariable
  | stackOverflow
  | stackUnderflow
  | invalidOpcode
  | invalidOperand
  | instructionLimit
  | outputFailure
deriving DecidableEq, Repr, Inhabited

/-- The name of a kind of runtime error. -/
def FaultKind.name : FaultKind → String
  | .typeMismatch => "type mismatch"
  | .undefinedVariable => "undefined variable"
  | .stackOverflow => "stack overflow"
  | .stackUnderflow => "stack underflow"
  | .invalidOpcode => "invalid opcode"
  | .invalidOperand => "invalid operand"
  | .instructionLimit => "instruction limit"
  | .outputFailure => "output failure"

/-- Where a runtime error arose: the chunk's name, the line and the offset of the instruction. -/
structure Frame where
  source : String
  line : Int
  ip : Int
deriving DecidableEq, Repr, Inhabited

/-- A runtime error. -/
structure Fault where
  kind : FaultKind
  message : Bytes
  frame : Frame
  cause : Option String
deriving DecidableEq, Repr, Inhabited

namespace Fault

/-- The text of a runtime error: its place, then its message. -/
def text (f : Fault) : Bytes :=
  let src := f.frame.source
  let loc :=
    if !src.isEmpty && f.frame.line > 0 then src ++ ":" ++ toString f.frame.line
    else if !src.isEmpty then src
    else if f.frame.line > 0 then "line " ++ toString f.frame.line
    else ""
  if loc.isEmpty then f.message else Bytes.ofString (loc ++ ": ") ++ f.message

/-- The report of a runtime error: its message over the line it arose on. -/
def report (f : Fault) : Bytes :=
  f.message ++ Bytes.ofString ("\n[line " ++ toString f.frame.line ++ "] in script")

end Fault

end StackScript
