import StackScript.Value
import StackScript.Hash.Xxh3

/-! # Hash tables keyed by string objects

An open-addressing table of slots. A key is a string object, found by identity; its home slot
is its XXH3 hash modulo the capacity, and a probe walks on by one slot at a time, wrapping
around. Deleting leaves a tombstone, which keeps later keys of the same probe reachable; an
insert reuses the first tombstone on its probe. Before an insert would fill more than three
quarters of the slots (live entries and tombstones together), the table grows to twice its
capacity (at least 8) and the live entries are placed anew in slot order, dropping tombstones.

The table also answers "which interned string has these bytes" (`findChars?`), the look-up
that interning is built on.
-/

namespace StackScript

/-- The hash of a string object: XXH3 of its bytes. -/
def Str.hash (s : Str) : UInt64 := xxh3 s.chars

/-- A slot of a table. -/
inductive Slot where
  | empty
  | tombstone
  | live (key : Str) (value : Value)
deriving Inhabited

/-- An open-addressing table: the live count, the tombstone count and the slots. -/
structure Table where
  count : Nat
  tombstones : Nat
  slots : Array Slot
deriving Inhabited

namespace Table

/-- The capacity after growing from `c`: twice as many slots, and at least 8. -/
def growCapacity (c : Int) : Int := if c < 8 then 8 else 2 * c

/-- The table with no slots. -/
def empty : Table := ⟨0, 0, #[]⟩

/-- The number of slots. -/
def capacity (t : Table) : Nat := t.slots.size

/-- The slot an insert or look-up of `key` settles on: the slot holding `key`, else the first
tombstone met before an empty slot, else that empty slot. At most one lap is walked. -/
def probe (slots : Array Slot) (key : Str) : Nat :=
  let cap := slots.size
  let rec walk (i : Nat) (fuel : Nat) (reuse : Option Nat) : Nat :=
    match fuel with
    | 0 => reuse.getD i
    | fuel + 1 =>
      match slots[i]? with
      | some (.live k _) => if k.serial == key.serial then i else walk ((i + 1) % cap) fuel reuse
      | some .tombstone => walk ((i + 1) % cap) fuel (reuse <|> some i)
      | _ => reuse.getD i
  walk (key.hash.toNat % cap) cap none

/-- The value of `key`, when it is live in the table. -/
def get? (t : Table) (key : Str) : Option Value :=
  if t.count = 0 then none
  else
    match t.slots[probe t.slots key]? with
    | some (.live _ v) => some v
    | _ => none

/-- Places the live entries of `slots`, in slot order, into `capacity` fresh slots. -/
def rehash (slots : Array Slot) (capacity : Nat) : Table :=
  slots.foldl (fun t s =>
    match s with
    | .live k v => { t with count := t.count + 1, slots := t.slots.setIfInBounds (probe t.slots k) (.live k v) }
    | _ => t) ⟨0, 0, Array.replicate capacity .empty⟩

/-- Sets `key` to `v`, growing first when the insert would pass the load limit. Answers
whether a live entry of `key` was replaced. -/
def insert (t : Table) (key : Str) (v : Value) : Table × Bool :=
  let t := if 4 * (t.count + t.tombstones + 1) > 3 * t.capacity
    then rehash t.slots (growCapacity t.capacity).toNat else t
  let i := probe t.slots key
  match t.slots[i]? with
  | some (.live _ _) => ({ t with slots := t.slots.setIfInBounds i (.live key v) }, true)
  | some .tombstone =>
    ({ t with count := t.count + 1, tombstones := t.tombstones - 1,
              slots := t.slots.setIfInBounds i (.live key v) }, false)
  | _ => ({ t with count := t.count + 1, slots := t.slots.setIfInBounds i (.live key v) }, false)

/-- Deletes `key`, leaving a tombstone. Answers whether it was live. -/
def erase (t : Table) (key : Str) : Table × Bool :=
  if t.count = 0 then (t, false)
  else
    let i := probe t.slots key
    match t.slots[i]? with
    | some (.live _ _) =>
      ({ count := t.count - 1, tombstones := t.tombstones + 1,
         slots := t.slots.setIfInBounds i .tombstone }, true)
    | _ => (t, false)

/-- `get?` for a key that may be missing (a null reference): no key has no value. -/
def getKey? (t : Table) : Option Str → Option Value
  | some key => t.get? key
  | none => none

/-- `insert` for a key that may be missing: with no key the table stays as it is. -/
def insertKey (t : Table) : Option Str → Value → Table × Bool
  | some key, v => t.insert key v
  | none, _ => (t, false)

/-- `erase` for a key that may be missing: with no key the table stays as it is. -/
def eraseKey (t : Table) : Option Str → Table × Bool
  | some key => t.erase key
  | none => (t, false)

/-- The live entries in slot order. -/
def toList (t : Table) : List (Str × Value) :=
  t.slots.toList.filterMap fun s =>
    match s with
    | .live k v => some (k, v)
    | _ => none

/-- The live key whose bytes are `chars`: the probe from the home slot of their hash, up to the
first empty slot. -/
def findChars? (t : Table) (chars : Bytes) : Option Str :=
  if t.count = 0 then none
  else
    let cap := t.slots.size
    let rec walk (i : Nat) (fuel : Nat) : Option Str :=
      match fuel with
      | 0 => none
      | fuel + 1 =>
        match t.slots[i]? with
        | some (.live k _) => if k.chars == chars then some k else walk ((i + 1) % cap) fuel
        | some .tombstone => walk ((i + 1) % cap) fuel
        | _ => none
    walk ((xxh3 chars).toNat % cap) cap

end Table

end StackScript
