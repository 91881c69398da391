import StackScript.Table

/-! # The heap and string interning

A heap makes string objects and keeps them interned: for each byte string at most one string
object of the heap holds it, so strings of one heap are equal exactly when their bytes are.
Asking for a string (`intern`) returns the interned object with those bytes, or makes a new one
with the next serial, appends it to the objects in allocation order and enters it into the
intern table. Concatenation interns the joined bytes. Freeing empties the heap but keeps the
serial counter, so objects made afterwards are new objects.

A detached string gets a serial from the same counter but is neither interned nor listed: it
is a string object equal only to itself.
-/

namespace StackScript

/-- A heap: the intern table, the objects in allocation order, and the next serial. -/
structure Heap where
  strings : Table
  objects : Array Str
  nextSerial : Nat
deriving Inhabited

namespace Heap

/-- A heap with nothing in it. -/
def empty : Heap := ⟨Table.empty, #[], 0⟩

/-- The interned string with these bytes, if there is one. -/
def lookup? (h : Heap) (chars : Bytes) : Option Str := h.strings.findChars? chars

/-- The interned string with these bytes, made and interned if there was none. -/
def intern (h : Heap) (chars : Bytes) : Heap × Str :=
  match h.lookup? chars with
  | some s => (h, s)
  | none =>
    let s : Str := ⟨h.nextSerial, chars⟩
    ({ strings := (h.strings.insert s .nil).1, objects := h.objects.push s,
       nextSerial := h.nextSerial + 1 }, s)

/-- The interned string holding the bytes of `a` followed by those of `b`. -/
def concat (h : Heap) (a b : Str) : Heap × Str := h.intern (a.chars ++ b.chars)

/-- The number of interned strings. -/
def stringCount (h : Heap) : Nat := h.strings.count

/-- The heap emptied; the serial counter goes on. -/
def free (h : Heap) : Heap := { empty with nextSerial := h.nextSerial }

/-- A string object that is not interned, with a serial of its own. -/
def detach (h : Heap) (chars : Bytes) : Heap × Str :=
  ({ h with nextSerial := h.nextSerial + 1 }, ⟨h.nextSerial, chars⟩)

end Heap

end StackScript
