import StackScript.Number.Text
import StackScript.Text.Bytes

/-! # Values

A value is nil, a boolean, a number (a double) or an object. Objects are strings, made by a
heap, and foreign objects, which an embedding program hands in and which the language can only
print and compare. Two strings are the same object when they have the same serial number: the
heap gives each string it makes a new serial, so two strings with equal bytes made separately
are different objects. Equality of values compares numbers as doubles (`NaN` differs from
itself, `0` equals `-0`) and objects by identity.
-/

namespace StackScript

/-- A string object: its bytes and the serial that makes it one object among equal texts. -/
structure Str where
  serial : Nat
  chars : Bytes
deriving DecidableEq, Repr, Inhabited

/-- A heap object. -/
inductive Obj where
  | str (s : Str)
  | foreign (text : Bytes)
deriving DecidableEq, Repr, Inhabited

namespace Obj

/-- Whether two objects are the same object. Strings are the same when their serials are;
foreign objects are the same when their texts are. -/
def same : Obj → Obj → Bool
  | str a, str b => a.serial == b.serial
  | foreign a, foreign b => a == b
  | _, _ => false

/-- The text an object prints as. -/
def text : Obj → Bytes
  | str s => s.chars
  | foreign t => t

/-- The name of an object's type. -/
def typeName : Obj → String
  | str _ => "string"
  | foreign _ => "object"

end Obj

/-- A value of the language. -/
inductive Value where
  | nil
  | bool (b : Bool)
  | number (x : Float)
  | obj (o : Obj)
deriving Inhabited

namespace Value

/-- The string object a value holds, if any. -/
def asStr? : Value → Option Str
  | obj (.str s) => some s
  | _ => none

/-- The number a value holds, if any. -/
def asNumber? : Value → Option Float
  | number x => some x
  | _ => none

/-- The name of a value's kind. -/
def kindName : Value → String
  | nil => "nil"
  | bool _ => "boolean"
  | number _ => "number"
  | obj _ => "object"

/-- The name of a value's type: its kind, except that strings are `string`. -/
def typeName : Value → String
  | obj o => o.typeName
  | v => v.kindName

/-- Nil and false are falsey; every other value is truthy. -/
def isFalsey : Value → Bool
  | nil => true
  | bool b => !b
  | _ => false

/-- Equality of values: same kind, and then equal booleans, equal doubles or the same object. -/
def equal : Value → Value → Bool
  | nil, nil => true
  | bool a, bool b => a == b
  | number a, number b => a == b
  | obj a, obj b => a.same b
  | _, _ => false

/-- The text a value prints as. -/
def text : Value → Bytes
  | nil => Bytes.ofString "nil"
  | bool b => Bytes.ofString (if b then "true" else "false")
  | number x => Bytes.ofString (numberText x)
  | obj o => o.text

end Value

end StackScript
