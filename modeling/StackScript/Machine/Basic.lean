import StackScript.Machine.Fault
import StackScript.Bytecode.Chunk
import StackScript.Heap

/-! # The machine

The stack machine's state: the value stack with its limit, the globals (a table keyed by
interned names), the heap its strings live in, its settings, and the registers of a run (the
next offset, the offset of the instruction dispatched last, and the number dispatched).

What a machine does to the world it records as effects, in order: lines of output, instructions
about to run (when tracing), and listings of compiled chunks (when printing code). Whoever runs
the machine takes them from its log and decides where they go.
-/

namespace StackScript

/-- One instruction about to run, as a tracer sees it: the byte, the frame, the stack before
it, and the chunk it belongs to. -/
structure TraceStep where
  op : UInt8
  source : String
  line : Int
  ip : Int
  stack : List Value
  chunk : Chunk

/-- Something a machine does to the world. -/
inductive Effect where
  | output (line : Bytes)
  | trace (step : TraceStep)
  | listing (text : Bytes)

/-- Where output goes: kept for the caller, dropped, to a writer on which every write fails, or
to a writer that holds every write until it is released. -/
inductive Sink where
  | keep
  | discard
  | failing
  | held
deriving DecidableEq, Repr, Inhabited

/-- A stack machine. -/
structure Machine where
  stack : Array Value := #[]
  stackMax : Nat := 256
  globals : Table := Table.empty
  heap : Heap := Heap.empty
  sink : Sink := .keep
  tracing : Bool := false
  printCode : Bool := false
  limit : Nat := 0
  ip : Nat := 0
  lastOp : Int := -1
  count : Nat := 0
  waiting : Option Bytes := none
  log : Array Effect := #[]

namespace Machine

/-- The stack limit a machine starts with. -/
def defaultStackMax : Nat := 256

/-- A new machine. -/
def new : Machine := {}

/-- Sets the stack limit; a limit below 1 restores the default. -/
def setStackMax (m : Machine) (n : Int) : Machine :=
  { m with stackMax := if n < 1 then defaultStackMax else n.toNat }

/-- Sets the instruction limit; 0 (or below) means none. -/
def setLimit (m : Machine) (n : Int) : Machine := { m with limit := n.toNat }

/-- Clears the registers of a run: the stack, the offsets, the count and a held line. -/
def reset (m : Machine) : Machine :=
  { m with stack := #[], ip := 0, lastOp := -1, count := 0, waiting := none }

/-- Resets the run, drops the globals and empties the heap. -/
def free (m : Machine) : Machine := { m.reset with globals := Table.empty, heap := m.heap.free }

/-- Records an effect. -/
def emit (m : Machine) (e : Effect) : Machine := { m with log := m.log.push e }

/-- The effects recorded so far, and the machine with an empty log. -/
def drain (m : Machine) : Array Effect × Machine := (m.log, { m with log := #[] })

end Machine

end StackScript
