import StackScript.Proofs.Compiler.Eval
import StackScript.Proofs.Heap.Intern
import StackScript.Machine.Program

/-! # Values and globals as the semantics sees them

A machine value stands for its content: a string object for its bytes. A machine is canonical
when its heap is sound and every string it keeps is the one its heap interns for its bytes: the
names its globals are keyed by and the strings among their values. Then comparing objects by
identity is comparing strings by their bytes (`Value.equal_eq`), and the globals read by name
through the heap (`Machine.env`) form a map from bytes to values, which an insert at an interned
name updates at that name alone (`Canonical.insert`) and which growing the heap leaves as it is
(`Canonical.grow`).
-/

namespace StackScript

set_option autoImplicit false

open Table

namespace Value

/-- The value of the semantics a machine value stands for. -/
def content : Value → Val
  | nil => .nil
  | bool b => .bool b
  | number x => .number x
  | obj o => .str o.text

/-- A value that compares by content in a heap: no foreign object, and a string only as the one
the heap interns for its bytes. -/
def Canon (h : Heap) : Value → Prop
  | obj (.str s) => h.lookup? s.chars = some s
  | obj (.foreign _) => False
  | _ => True

theorem Canon.grow {h h' : Heap} (hG : h.Grows h') (hWF : h.WF) {v : Value} (hv : v.Canon h) :
    v.Canon h' := by
  cases v with
  | obj o =>
    cases o with
    | str s => exact (hG hWF).2 _ _ hv
    | foreign _ => exact hv
  | _ => exact hv

@[simp] theorem isFalsey_content (v : Value) : v.content.isFalsey = v.isFalsey := by
  cases v <;> rfl

@[simp] theorem text_content (v : Value) : v.content.text = v.text := by
  cases v <;> rfl

theorem canon_str {h : Heap} {c : Bytes} {s : Str} (hl : h.lookup? c = some s) :
    (Value.obj (.str s)).Canon h ∧ (Value.obj (.str s)).content = .str c := by
  obtain ⟨-, hChars⟩ := Heap.WF.lookup?_sound hl
  refine ⟨Heap.lookup?_self hl, ?_⟩
  show Val.str s.chars = .str c
  rw [hChars]

/-- In a sound heap, two canonical values are the same object exactly when their contents are
equal. -/
theorem equal_eq {h : Heap} (hWF : h.WF) {a b : Value} (ha : a.Canon h) (hb : b.Canon h) :
    a.equal b = a.content.equal b.content := by
  cases a with
  | obj o =>
    cases o with
    | foreign => exact absurd ha id
    | str s =>
      cases b with
      | obj o' =>
        cases o' with
        | foreign => exact absurd hb id
        | str s' =>
          -- One serial is one interned string, hence one byte string, and back.
          simp only [Value.equal, Obj.same, content, Obj.text, Val.equal, Bool.beq_eq_decide_eq]
          congr 1
          apply propext
          constructor
          · intro hSerial
            exact hWF.lookup?_serial_inj ha hb hSerial
          · intro hChars
            have hSame : s = s' := by
              have hl : h.lookup? s'.chars = some s := by rw [← hChars]; exact ha
              exact Option.some.inj (hl.symm.trans hb)
            rw [hSame]
      | _ => rfl
  | _ => cases b <;> (try cases ‹Obj›) <;> rfl

end Value

namespace Table

/-- The map a table stands for reads a key by its serial alone. -/
theorem lookup_congr {t : Table} {k k' : Str} (h : k.serial = k'.serial) : t.lookup k = t.lookup k' := by
  simp only [lookup, h]

end Table

namespace Machine

/-- The globals of a machine read by name: the value bound to the name's interned string. -/
def env (m : Machine) : Env := fun x => (m.global? x).map Value.content

/-- A machine whose strings are interned: its heap is sound, and its globals form a sound table
keyed by interned names with values that compare by content. -/
structure Canonical (m : Machine) : Prop where
  heap : m.heap.WF
  globals : m.globals.Inv
  keys : ∀ (k : Str) (v : Value), Holds m.globals k v → m.heap.lookup? k.chars = some k
  values : ∀ (k : Str) (v : Value), Holds m.globals k v → v.Canon m.heap

variable {m m' : Machine}

theorem Canonical.congr (hM : m.Canonical) (hHeap : m'.heap = m.heap) (hGlobals : m'.globals = m.globals) :
    m'.Canonical := by
  obtain ⟨h₁, h₂, h₃, h₄⟩ := hM
  exact ⟨hHeap ▸ h₁, hGlobals ▸ h₂, hGlobals ▸ hHeap ▸ h₃, hGlobals ▸ hHeap ▸ h₄⟩

theorem env_congr (hHeap : m'.heap = m.heap) (hGlobals : m'.globals = m.globals) : m'.env = m.env := by
  funext x
  simp only [env, global?, hHeap, hGlobals]

/-- The interned string of a name is the only key of the globals with its serial. -/
theorem Canonical.agrees (hM : m.Canonical) {x : Bytes} {k : Str} (hl : m.heap.lookup? x = some k) :
    m.globals.Agrees k := by
  intro k' w hHolds hSerial
  have hChars := hM.heap.lookup?_serial_inj (hM.keys k' w hHolds) hl hSerial
  have hl' := hM.keys k' w hHolds
  rw [hChars, hl] at hl'
  exact (Option.some.inj hl').symm

theorem Canonical.get?_eq (hM : m.Canonical) {x : Bytes} {k : Str} (hl : m.heap.lookup? x = some k) :
    m.globals.get? k = m.globals.lookup k :=
  hM.globals.get?_eq_lookup (hM.agrees hl)

theorem Canonical.env_of_lookup (hM : m.Canonical) {x : Bytes} {k : Str} (hl : m.heap.lookup? x = some k) :
    m.env x = (m.globals.lookup k).map Value.content := by
  simp only [env, global?, hl, Option.bind_some, hM.get?_eq hl]

theorem env_of_lookup_none {x : Bytes} (hl : m.heap.lookup? x = none) : m.env x = none := by
  simp only [env, global?, hl, Option.bind_none, Option.map_none]

/-- Two names with one interned string serial are one name. -/
theorem Canonical.serial_ne (hM : m.Canonical) {x y : Bytes} {k k' : Str} (hx : m.heap.lookup? x = some k)
    (hy : m.heap.lookup? y = some k') (hxy : y ≠ x) : k'.serial ≠ k.serial :=
  fun hSerial => hxy (hM.heap.lookup?_serial_inj hy hx hSerial)

/-- Inserting a canonical value at the interned string of a name binds the name and no other,
keeps the machine canonical, and answers whether the name was bound. -/
theorem Canonical.insert (hM : m.Canonical) {x : Bytes} {k : Str} (hl : m.heap.lookup? x = some k)
    {v : Value} (hv : v.Canon m.heap) :
    { m with globals := (m.globals.insert k v).1 }.Canonical ∧
      { m with globals := (m.globals.insert k v).1 }.env = m.env.set x v.content ∧
      (m.globals.insert k v).2 = (m.env x).isSome := by
  obtain ⟨hInv, hAnswer, hHolds, hLookup⟩ := hM.globals.insert (v := v) (hM.agrees hl)
  have hM' : { m with globals := (m.globals.insert k v).1 }.Canonical := by
    refine ⟨hM.heap, hInv, fun k' w hk => ?_, fun k' w hk => ?_⟩
    · rcases (hHolds k' w).mp hk with ⟨rfl, -⟩ | ⟨-, hOld⟩
      · exact Heap.lookup?_self hl
      · exact hM.keys k' w hOld
    · rcases (hHolds k' w).mp hk with ⟨-, rfl⟩ | ⟨-, hOld⟩
      · exact hv
      · exact hM.values k' w hOld
  refine ⟨hM', ?_, by rw [hAnswer, hM.env_of_lookup hl, Option.isSome_map]⟩
  funext y
  -- A name is read through its interned string; only the name `x` has the serial of `k`.
  cases hy : m.heap.lookup? y with
  | none =>
    have hxy : y ≠ x := fun h => by rw [h, hl] at hy; cases hy
    rw [env_of_lookup_none (m := { m with globals := (m.globals.insert k v).1 }) hy,
      Env.set, if_neg hxy, env_of_lookup_none hy]
  | some k' =>
    rw [hM'.env_of_lookup hy, hLookup k', Env.set]
    by_cases hxy : y = x
    · subst hxy
      rw [hl] at hy
      cases hy
      rw [if_pos rfl, if_pos rfl]
      rfl
    · rw [if_neg (hM.serial_ne hl hy hxy), if_neg hxy, hM.env_of_lookup hy]

/-- Erasing the interned string of a name that was not bound before an insert undoes the insert
on the map. -/
theorem Canonical.erase (hM : m.Canonical) {x : Bytes} {k : Str} (hl : m.heap.lookup? x = some k)
    {v : Value} (hv : v.Canon m.heap) (hUnbound : m.env x = none) :
    { m with globals := ((m.globals.insert k v).1.erase k).1 }.Canonical ∧
      { m with globals := ((m.globals.insert k v).1.erase k).1 }.env = m.env := by
  obtain ⟨hM₁, -, -⟩ := hM.insert hl hv
  obtain ⟨hInv, -, hHolds, hLookup⟩ := hM₁.globals.erase (hM₁.agrees hl)
  obtain ⟨-, -, -, hLookup₁⟩ := hM.globals.insert (v := v) (hM.agrees hl)
  have hM' : { m with globals := ((m.globals.insert k v).1.erase k).1 }.Canonical :=
    ⟨hM.heap, hInv, fun k' w hk => hM₁.keys k' w (hHolds k' w hk),
      fun k' w hk => hM₁.values k' w (hHolds k' w hk)⟩
  refine ⟨hM', ?_⟩
  have hNone : m.globals.lookup k = none := by
    rw [hM.env_of_lookup hl, Option.map_eq_none_iff] at hUnbound
    exact hUnbound
  funext y
  cases hy : m.heap.lookup? y with
  | none =>
    rw [env_of_lookup_none (m := { m with globals := ((m.globals.insert k v).1.erase k).1 }) hy,
      env_of_lookup_none hy]
  | some k' =>
    rw [hM'.env_of_lookup hy, hLookup k', hLookup₁ k', hM.env_of_lookup hy]
    by_cases hSerial : k'.serial = k.serial
    · rw [if_pos hSerial, lookup_congr hSerial, hNone]
    · rw [if_neg hSerial, if_neg hSerial]

/-- Growing the heap keeps a canonical machine canonical, with the same globals by name: a name
new to the heap is bound to nothing, since every key is older. -/
theorem Canonical.grow (hM : m.Canonical) {h' : Heap} (hG : m.heap.Grows h') :
    { m with heap := h' }.Canonical ∧ { m with heap := h' }.env = m.env := by
  obtain ⟨hWF', hFind⟩ := hG hM.heap
  have hM' : { m with heap := h' }.Canonical :=
    ⟨hWF', hM.globals, fun k v hk => hFind _ _ (hM.keys k v hk),
      fun k v hk => Value.Canon.grow hG hM.heap (hM.values k v hk)⟩
  refine ⟨hM', ?_⟩
  funext y
  cases hy : m.heap.lookup? y with
  | some k => rw [hM'.env_of_lookup (hFind _ _ hy), hM.env_of_lookup hy]
  | none =>
    rw [env_of_lookup_none hy]
    cases hy' : h'.lookup? y with
    | none => exact env_of_lookup_none (m := { m with heap := h' }) hy'
    | some k' =>
      rw [hM'.env_of_lookup hy', Option.map_eq_none_iff]
      -- A key of the globals with the serial of `k'` would be found by `y` in the old heap.
      cases hk : m.globals.lookup k' with
      | none => rfl
      | some w =>
        obtain ⟨k₀, hSerial, hHolds⟩ := hM.globals.lookup_eq_some_iff.mp hk
        have hOld := hM.keys k₀ w hHolds
        have hChars := hWF'.lookup?_serial_inj (hFind _ _ hOld) hy' hSerial
        rw [hChars, hy] at hOld
        cases hOld

end Machine

end StackScript
