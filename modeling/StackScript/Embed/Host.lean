import StackScript.Machine.Program
import StackScript.Bytecode.Codec
import StackScript.Number.Width

/-! # Embedding

A host program drives machines through a small interface: it compiles scripts on a machine,
runs them to their end or starts them and awaits them later, binds and reads globals as values
of its own, duplicates machines and lists compiled source.

A machine takes one call at a time. A started run whose output is held stays in flight: the
machine is busy until the output is released, and every call that needs the machine fails
with the busy error meanwhile. A script runs only on the machine that compiled or loaded it,
since that machine's heap holds its strings. A missing machine (the host's null handle)
answers every call that needs it with its own error, and ignores the setters.
-/

namespace StackScript

/-- The text of a runtime error as a host sees it: `source:line`, or `line N` without a
source, in front of the message; a frame without a line adds nothing. -/
def Fault.hostText (f : Fault) : Bytes :=
  if f.frame.line > 0 then
    let loc := if f.frame.source.isEmpty then "line " ++ toString f.frame.line
      else f.frame.source ++ ":" ++ toString f.frame.line
    Bytes.ofString (loc ++ ": ") ++ f.message
  else f.message

namespace Embed

/-- A value as the host hands it to a machine. -/
inductive Native where
  | none
  | flag (b : Bool)
  | text (s : Bytes)
  | real (x : Float)
  /-- An integer of a width that always converts, by rounding to the nearest double. -/
  | integer (n : Int)
  /-- A 64-bit unsigned integer: it converts only when it is at most `2^53`. -/
  | wide (n : Nat)
  | unsupported (typeName : String)

/-- Why a call failed. -/
inductive Failure where
  | noMachine
  | busy
  | foreignScript
  | cancelled
  | noWriter
  | compile (e : CompileFailure)
  | runtime (f : Fault)
  | load (e : LoadError)
  | unreadable (path : String)
  | binding (name : Bytes) (detail : String)
  | refused (detail : String)

/-- The text of a failure. -/
def Failure.text : Failure → Bytes
  | .noMachine => Bytes.ofString "nil VM"
  | .busy => Bytes.ofString "VM is busy; concurrent runs not allowed"
  | .foreignScript => Bytes.ofString "script was not compiled by this VM"
  | .cancelled => Bytes.ofString "context canceled"
  | .noWriter => Bytes.ofString "nil writer"
  | .compile e => e.message
  | .runtime f => f.hostText
  | .load e => Bytes.ofString e.message
  | .unreadable path => Bytes.ofString ("open " ++ path ++ ": no such file or directory")
  | .binding name detail => Bytes.ofString ("global " ++ Bytes.quote name ++ ": " ++ detail)
  | .refused detail => Bytes.ofString detail

/-- The largest integer that every double below it represents exactly. -/
def exactLimit : Nat := Nat.pow 2 53

/-- The machine value of a host value; strings are interned in the machine's heap. -/
def Native.toValue (m : Machine) : Native → Machine × Except String Value
  | .none => (m, .ok .nil)
  | .flag b => (m, .ok (.bool b))
  | .text s => let (m, str) := m.string s; (m, .ok (.obj (.str str)))
  | .real x => (m, .ok (.number x))
  | .integer n => (m, .ok (.number (Float.ofInt n)))
  | .wide n =>
    if n > exactLimit then (m, .error ("integer " ++ toString n ++ " exceeds float64 precision"))
    else (m, .ok (.number (Float.ofNat n)))
  | .unsupported t => (m, .error ("unsupported type " ++ t))

/-- A machine value as the host receives it: objects other than strings become nothing. -/
def hostValue : Value → Value
  | .obj (.foreign _) => .nil
  | v => v

/-- A compiled chunk and the machine it belongs to. -/
structure Script where
  chunk : Chunk
  owner : Nat

/-- A machine as the host holds it, with the run it has in flight, if any: the chunk and the
future that waits for it. -/
structure Host where
  core : Machine
  running : Option (Chunk × Nat) := none

/-- The result of a started run: known, or still in flight on a machine. -/
inductive Future where
  | ready (result : Option Failure)
  | pending

/-- The machines, scripts and futures of a host program. -/
structure Session where
  hosts : Array Host
  scripts : Array Script := #[]
  futures : Array Future := #[]

/-- A session with one fresh machine. -/
def Session.new : Session := ⟨#[{ core := Machine.new }], #[], #[]⟩

namespace Session

/-- The machine a call needs, when it is there and free. -/
def acquire (s : Session) : Option Nat → Except Failure Host
  | none => .error .noMachine
  | some i =>
    match s.hosts[i]? with
    | none => .error .noMachine
    | some h => if h.running.isSome then .error .busy else .ok h

/-- Replaces the machine at an index. -/
def put (s : Session) (i : Nat) (h : Host) : Session := { s with hosts := s.hosts.setIfInBounds i h }

/-- Changes a machine's settings; a missing machine ignores it. -/
def configure (s : Session) (who : Option Nat) (f : Machine → Machine) : Session :=
  match who with
  | none => s
  | some i =>
    match s.hosts[i]? with
    | none => s
    | some h => s.put i { h with core := f h.core }

/-- Compiles a source on a machine and keeps the script; answers its index. -/
def compile (s : Session) (who : Option Nat) (name : String) (src : Bytes) :
    Session × Except Failure Nat :=
  match who, s.acquire who with
  | some i, .ok h =>
    match h.core.compile name src with
    | (m, .error e) => (s.put i { h with core := m }, .error (.compile e))
    | (m, .ok c) =>
      ({ s.put i { h with core := m } with scripts := s.scripts.push ⟨c, i⟩ }, .ok s.scripts.size)
  | _, .error e => (s, .error e)
  | none, .ok _ => (s, .error .noMachine)

/-- Loads a stored script on a machine, interning its strings there; answers its index. -/
def load (s : Session) (who : Option Nat) (data : Bytes) : Session × Except Failure Nat :=
  match who, s.acquire who with
  | some i, .ok h =>
    match Chunk.load data (some h.core.heap) with
    | (heap, r) =>
      let s := s.put i { h with core := { h.core with heap := heap.getD h.core.heap } }
      match r with
      | .error e => (s, .error (.load e))
      | .ok c => ({ s with scripts := s.scripts.push ⟨c, i⟩ }, .ok s.scripts.size)
  | _, .error e => (s, .error e)
  | none, .ok _ => (s, .error .noMachine)

/-- Starts a chunk on a free machine. A run that finishes gives its result at once; one whose
output is held stays in flight, tied to the future that the next index names. -/
def begin (s : Session) (i : Nat) (h : Host) (c : Chunk) : Session × Future :=
  match h.core.start c with
  | (m, .finished r) => (s.put i { h with core := m }, .ready (r.map .runtime))
  | (m, .paused) => (s.put i { core := m, running := some (c, s.futures.size) }, .pending)

/-- Starts a script on a machine. The script must be one of that machine's; the machine must
be free; a cancelled start runs nothing. -/
def launch (s : Session) (who : Option Nat) (script : Option Nat) (cancelled : Bool) :
    Session × Future :=
  match (script.bind (s.scripts[·]?)) with
  | none => (s, .ready (some .foreignScript))
  | some sc =>
    if who != some sc.owner then (s, .ready (some .foreignScript))
    else
      match s.acquire who with
      | .error e => (s, .ready (some e))
      | .ok h => if cancelled then (s, .ready (some .cancelled)) else s.begin sc.owner h sc.chunk

/-- Starts a script and keeps its future; answers the future's index. -/
def start (s : Session) (who : Option Nat) (script : Option Nat) : Session × Nat :=
  let (s, f) := s.launch who script false
  ({ s with futures := s.futures.push f }, s.futures.size)

/-- Waits for a future. A run still in flight is only left by cancelling the wait. A result
is handed over once; waiting again finds nothing more and succeeds. -/
def await (s : Session) (f : Nat) (cancelled : Bool) : Session × Option Failure :=
  match s.futures[f]? with
  | some (.ready r) => ({ s with futures := s.futures.setIfInBounds f (.ready none) }, r)
  | some .pending => (s, if cancelled then some .cancelled else none)
  | none => (s, none)

/-- Runs a script to its end. -/
def run (s : Session) (who : Option Nat) (script : Option Nat) (cancelled : Bool) :
    Session × Option Failure :=
  match s.launch who script cancelled with
  | (s, .ready r) => (s, r)
  | (s, .pending) => (s, none)

/-- Compiles a source on a machine and runs it to its end. -/
def runSource (s : Session) (who : Option Nat) (name : String) (src : Bytes) :
    Session × Option Failure :=
  match who, s.acquire who with
  | some i, .ok h =>
    match h.core.compile name src with
    | (m, .error e) => (s.put i { h with core := m }, some (.compile e))
    | (m, .ok c) =>
      match s.begin i { h with core := m } c with
      | (s, .ready r) => (s, r)
      | (s, .pending) => (s, none)
  | _, .error e => (s, some e)
  | none, .ok _ => (s, some .noMachine)

/-- Runs the contents of a file, named by its path; `none` is a file that cannot be read. -/
def runFile (s : Session) (who : Option Nat) (path : String) (contents : Option Bytes) :
    Session × Option Failure :=
  match contents with
  | none => (s, some (.unreadable path))
  | some src => s.runSource who path src

/-- Lets held output through on every machine and finishes the runs it kept in flight. -/
def release (s : Session) : Session :=
  s.hosts.size.fold (fun i _ s =>
    match s.hosts[i]? with
    | none => s
    | some h =>
      let core := { h.core with sink := if h.core.sink == .held then .keep else h.core.sink }
      match h.running with
      | none => s.put i { h with core }
      | some (c, f) =>
        match core.resume c with
        | (m, .finished r) =>
          { s.put i { core := m } with futures := s.futures.setIfInBounds f (.ready (r.map .runtime)) }
        | (m, .paused) => s.put i { core := m, running := some (c, f) }) s

/-- The value of a global as the host receives it; nothing when the machine is not free. -/
def global? (s : Session) (who : Option Nat) (name : Bytes) : Option Value :=
  match s.acquire who with
  | .ok h => (h.core.global? name).map hostValue
  | .error _ => none

/-- Every global as the host receives it, in slot order. -/
def globals (s : Session) (who : Option Nat) : Except Failure (List (Str × Value)) := do
  let h ← s.acquire who
  pure (h.core.globalList.map fun (k, v) => (k, hostValue v))

/-- Binds a host value to a global. -/
def setGlobal (s : Session) (who : Option Nat) (name : Bytes) (v : Native) :
    Session × Option Failure :=
  match who, s.acquire who with
  | some i, .ok h =>
    match v.toValue h.core with
    | (m, .error d) => (s.put i { h with core := m }, some (.binding name d))
    | (m, .ok v) => (s.put i { h with core := m.defineGlobal name v }, none)
  | _, .error e => (s, some e)
  | none, .ok _ => (s, some .noMachine)

/-- Adds a copy of a machine; answers its index. -/
def duplicate (s : Session) (who : Option Nat) : Session × Except Failure Nat :=
  match s.acquire who with
  | .ok h => ({ s with hosts := s.hosts.push { core := h.core.duplicate } }, .ok s.hosts.size)
  | .error e => (s, .error e)

/-- Compiles a source on a machine and lists it to a writer, if there is one. -/
def disassemble (s : Session) (who : Option Nat) (name : String) (src : Bytes) (writer : Bool) :
    Session × Bytes × Option Failure :=
  match who, s.acquire who with
  | some i, .ok h =>
    if !writer then (s, [], some .noWriter)
    else
      let (m, text, r) := h.core.disassemble name src
      let s := s.put i { h with core := m }
      match r with
      | some (.error e) => (s, text, some (.compile e))
      | some (.ok d) => (s, text, some (.refused d))
      | none => (s, text, none)
  | _, .error e => (s, [], some e)
  | none, .ok _ => (s, [], some .noMachine)

/-- Stores a script. -/
def store (s : Session) (script : Nat) : Except Failure Bytes :=
  match s.scripts[script]? with
  | none => .error .foreignScript
  | some sc => match sc.chunk.store with
    | .ok b => .ok b
    | .error d => .error (.refused d)

/-- What every machine recorded since it was last asked. -/
def drain (s : Session) : Session × Array Effect :=
  s.hosts.foldl (fun (s, log) h =>
    let (l, m) := h.core.drain
    ({ s with hosts := s.hosts.push { h with core := m } }, log ++ l)) ({ s with hosts := #[] }, #[])

end Session

end Embed

end StackScript
