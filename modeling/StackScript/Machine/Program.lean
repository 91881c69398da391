import StackScript.Machine.Run
import StackScript.Compiler.Compile
import StackScript.Bytecode.Listing

/-! # Programs on a machine

What a host does with a machine: compile source with its heap (recording the listing when it
prints code), interpret source (compile, then run), bind and read globals by name, list the
globals, make strings, list compiled source, and duplicate the machine. A duplicate has the
settings and the globals of the original, its strings copied into a heap of its own in the
order of the globals' slots, and nothing of a run in progress.
-/

namespace StackScript

/-- How interpreting a source ended. -/
inductive Interpretation where
  | ok
  | compileError (e : CompileFailure)
  | runtimeError (f : Fault)

/-- The name of how an interpretation ended. -/
def Interpretation.name : Interpretation → String
  | .ok => "ok"
  | .compileError _ => "compile error"
  | .runtimeError _ => "runtime error"

namespace TraceStep

/-- A trace step as a trace writer shows it: the stack, one `[ value ]` per slot after ten
spaces, then the listing line of the instruction. -/
def render (t : TraceStep) : Bytes :=
  Bytes.ofString "          " ++
    (t.stack.map fun v => Bytes.ofString "[ " ++ v.text ++ Bytes.ofString " ]").flatten ++ [10] ++
    (Listing.instruction t.chunk t.ip).1

end TraceStep

namespace Machine

/-- Compiles a source with the machine's heap; a successful compile is listed when the machine
prints code. -/
def compile (m : Machine) (name : String) (src : Bytes) : Machine × Except CompileFailure Chunk :=
  let r := StackScript.compile src m.heap name
  let m := { m with heap := r.heap }
  match r.failure with
  | some e => (m, .error e)
  | none =>
    let m := if m.printCode then m.emit (.listing (Listing.chunkSection r.chunk "" false).1) else m
    (m, .ok r.chunk)

/-- Compiles a source under the default name and runs it. -/
def interpret (m : Machine) (src : Bytes) : Machine × Interpretation :=
  match m.compile "" src with
  | (m, .error e) => (m, .compileError e)
  | (m, .ok c) =>
    match m.run c with
    | (m, some f) => (m, .runtimeError f)
    | (m, none) => (m, .ok)

/-- The string with these bytes, interned in the machine's heap. -/
def string (m : Machine) (chars : Bytes) : Machine × Str :=
  let (heap, s) := m.heap.intern chars
  ({ m with heap }, s)

/-- Binds a global, interning its name. -/
def defineGlobal (m : Machine) (name : Bytes) (v : Value) : Machine :=
  let (m, key) := m.string name
  { m with globals := (m.globals.insert key v).1 }

/-- The value of a global, looked up by name without interning it. -/
def global? (m : Machine) (name : Bytes) : Option Value :=
  (m.heap.lookup? name).bind m.globals.get?

/-- The globals in slot order. -/
def globalList (m : Machine) : List (Str × Value) := m.globals.toList

/-- The number of values on the stack. -/
def depth (m : Machine) : Nat := m.stack.size

/-- Compiles a source with the machine's heap, without printing code, and lists it. -/
def disassemble (m : Machine) (name : String) (src : Bytes) :
    Machine × Bytes × Option (Except CompileFailure String) :=
  let r := StackScript.compile src m.heap name
  let m := { m with heap := r.heap }
  match r.failure with
  | some e => (m, [], some (.error e))
  | none =>
    let (text, err) := Listing.chunkSection r.chunk "" false
    (m, text, err.map .ok)

/-- A value copied into a heap: strings are interned there, all else stays. -/
def copyValue (h : Heap) : Value → Heap × Value
  | .obj (.str s) => let (h, s) := h.intern s.chars; (h, .obj (.str s))
  | v => (h, v)

/-- A new machine with the settings and globals of this one. -/
def duplicate (m : Machine) : Machine :=
  let d : Machine := { stackMax := m.stackMax, sink := m.sink, printCode := m.printCode,
                       tracing := m.tracing, limit := m.limit }
  m.globals.toList.foldl (fun d (k, v) =>
    let (heap, k) := d.heap.intern k.chars
    let (heap, v) := copyValue heap v
    { d with heap, globals := (d.globals.insert k v).1 }) d

end Machine

end StackScript
