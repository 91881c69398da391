import StackScript.Proofs.Table.Growth

/-! # The table is a finite map

A table stands for the finite map `lookup` reads off its live entries, keyed by object: two keys
are the same key when they are the same string object, that is when their serials agree. This
module proves that every operation does to that map what a map operation does:

* `get?` answers `lookup`;
* `insert` sets one key and answers whether it was there; `erase` removes one key and answers
  whether it was there; a missing key is ignored;
* `count` is the size of the map, and `toList` lists each of its entries once, in slot order.

It holds for every table that inserts and deletes build from the empty one (`Built`), with keys
drawn from a set in which a serial names one object. The main statement is
`Built.refines_map`, which also collects the invariants of `Inv` those tables keep.
-/

namespace StackScript

set_option autoImplicit false

namespace Table

/-- The map a table stands for: the value of the live entry whose key is the object `key`. -/
def lookup (t : Table) (key : Str) : Option Value :=
  (t.toList.find? fun e => e.1.serial == key.serial).map Prod.snd

/-! ## Entries and the map -/

section View

variable {t : Table}

theorem mem_toList_iff {k : Str} {v : Value} : (k, v) ∈ t.toList ↔ Holds t k v := by
  rw [holds_iff_mem, toList, List.mem_filterMap]
  constructor
  · rintro ⟨s, hMem, hs⟩
    cases s with
    | live k' v' =>
      cases hs
      exact hMem
    | _ => cases hs
  · intro hMem
    exact ⟨_, hMem, rfl⟩

/-- Two live entries of one object in a sound table are one entry. -/
theorem Inv.holds_unique (hInv : t.Inv) {k₁ k₂ : Str} {v₁ v₂ : Value} (h₁ : Holds t k₁ v₁)
    (h₂ : Holds t k₂ v₂) (hSerial : k₁.serial = k₂.serial) : k₁ = k₂ ∧ v₁ = v₂ := by
  obtain ⟨i, hi⟩ := h₁
  obtain ⟨j, hj⟩ := h₂
  obtain rfl := hInv.unique i j k₁ k₂ v₁ v₂ hi hj hSerial
  rw [hi] at hj
  cases hj
  exact ⟨rfl, rfl⟩

/-- The map holds `v` at `key` exactly when a live entry of the same object holds it. -/
theorem Inv.lookup_eq_some_iff (hInv : t.Inv) {key : Str} {v : Value} :
    t.lookup key = some v ↔ ∃ k, k.serial = key.serial ∧ Holds t k v := by
  rw [lookup, Option.map_eq_some_iff]
  constructor
  · rintro ⟨⟨k, w⟩, hFind, rfl⟩
    have hSerial : k.serial = key.serial := by simpa using List.find?_some hFind
    exact ⟨k, hSerial, mem_toList_iff.mp (List.mem_of_find?_eq_some hFind)⟩
  · rintro ⟨k, hSerial, hHolds⟩
    -- The search finds some entry of the object; it is the one that holds `v`.
    have hSome : (t.toList.find? fun e => e.1.serial == key.serial).isSome := by
      rw [List.find?_isSome]
      exact ⟨(k, v), mem_toList_iff.mpr hHolds, by simpa using hSerial⟩
    obtain ⟨⟨k', w⟩, hFind⟩ := Option.isSome_iff_exists.mp hSome
    have hSerial' : k'.serial = key.serial := by simpa using List.find?_some hFind
    have hHolds' := mem_toList_iff.mp (List.mem_of_find?_eq_some hFind)
    obtain ⟨rfl, rfl⟩ := hInv.holds_unique hHolds' hHolds (hSerial'.trans hSerial.symm)
    exact ⟨_, hFind, rfl⟩

theorem Inv.lookup_eq_of_holds (hInv : t.Inv) {key : Str} {v : Value} (hHolds : Holds t key v) :
    t.lookup key = some v :=
  hInv.lookup_eq_some_iff.mpr ⟨key, rfl, hHolds⟩

theorem Inv.lookup_eq_none (hInv : t.Inv) {key : Str}
    (hNone : ∀ (k : Str) (v : Value), k.serial = key.serial → ¬ Holds t k v) :
    t.lookup key = none := by
  cases hLook : t.lookup key with
  | none => rfl
  | some v =>
    obtain ⟨k, hSerial, hHolds⟩ := hInv.lookup_eq_some_iff.mp hLook
    exact absurd hHolds (hNone k v hSerial)

/-- With keys named by their objects, the map has a value at `key` exactly when `key` is live. -/
theorem Inv.lookup_isSome_iff (hInv : t.Inv) {key : Str} (hKey : t.Agrees key) :
    (t.lookup key).isSome = true ↔ ∃ w, Holds t key w := by
  rw [Option.isSome_iff_exists]
  constructor
  · rintro ⟨w, hLook⟩
    obtain ⟨k, hSerial, hHolds⟩ := hInv.lookup_eq_some_iff.mp hLook
    obtain rfl := hKey k w hHolds hSerial
    exact ⟨w, hHolds⟩
  · rintro ⟨w, hHolds⟩
    exact ⟨w, hInv.lookup_eq_of_holds hHolds⟩

/-- The live count is the number of listed entries. -/
theorem Inv.count_eq_length (hInv : t.Inv) : t.count = t.toList.length := by
  rw [hInv.count_eq, toList, List.length_filterMap_eq_countP]
  apply List.countP_congr
  intro s _
  cases s <;> simp [Slot.isLive]

/-- No object is listed twice. -/
theorem Inv.nodup_serials (hInv : t.Inv) : (t.toList.map fun e => e.1.serial).Nodup := by
  rw [List.nodup_iff_pairwise_ne, List.pairwise_map, toList, List.pairwise_filterMap]
  refine hInv.pairwise_apart.imp ?_
  intro a b hApart e he e' he'
  cases a <;> cases b <;> simp only [reduceCtorEq] at he he'
  cases he
  cases he'
  exact hApart

end View

/-! ## The operations on the map -/

section Operations

variable {t : Table} {key : Str} {v : Value}

theorem Inv.get?_eq_lookup (hInv : t.Inv) (hKey : t.Agrees key) : t.get? key = t.lookup key := by
  by_cases hZero : t.count = 0
  · rw [get?, if_pos hZero, hInv.lookup_eq_none fun k w _ => hInv.not_holds_of_count hZero]
  · rcases hInv.probe_cases (hInv.capacity_pos hZero) hKey with
      ⟨w, hq⟩ | ⟨hAbsent, -, -, -, -, s₀, hq, hFree⟩
    · rw [get?, if_neg hZero, hq, hInv.lookup_eq_of_holds ⟨_, hq⟩]
    · rw [hInv.lookup_eq_none fun k w hSerial => not_holds_of_absent hAbsent hSerial]
      cases s₀ with
      | live => simp at hFree
      | _ => simp [get?, hZero, hq]

/-- The map after a write that sets `key`: its value at the object of `key` changes, no other. -/
theorem lookup_eq_of_holds_iff {t' : Table} (hInv : t.Inv) (hInv' : t'.Inv) {r : Option Value}
    (hHolds : ∀ (k : Str) (w : Value), Holds t' k w ↔
      (k.serial = key.serial ∧ (k = key ∧ r = some w)) ∨ (k.serial ≠ key.serial ∧ Holds t k w))
    (k : Str) : t'.lookup k = if k.serial = key.serial then r else t.lookup k := by
  apply Option.ext
  intro w
  rw [hInv'.lookup_eq_some_iff]
  split
  · rename_i hSerial
    constructor
    · rintro ⟨k₀, hSerial₀, hHolds₀⟩
      rcases (hHolds k₀ w).mp hHolds₀ with ⟨-, -, hr⟩ | ⟨hOther, -⟩
      · exact hr
      · exact absurd (hSerial₀.trans hSerial) hOther
    · intro hr
      exact ⟨key, hSerial.symm, (hHolds key w).mpr (.inl ⟨rfl, rfl, hr⟩)⟩
  · rename_i hSerial
    rw [hInv.lookup_eq_some_iff]
    constructor
    · rintro ⟨k₀, hSerial₀, hHolds₀⟩
      rcases (hHolds k₀ w).mp hHolds₀ with ⟨hKey₀, -⟩ | ⟨-, hOld⟩
      · exact absurd (hSerial₀.symm.trans hKey₀) hSerial
      · exact ⟨k₀, hSerial₀, hOld⟩
    · rintro ⟨k₀, hSerial₀, hOld⟩
      exact ⟨k₀, hSerial₀, (hHolds k₀ w).mpr (.inr ⟨fun h => hSerial (hSerial₀.symm.trans h), hOld⟩)⟩

theorem Agrees.of_holds_iff {u : Table} (hKey : t.Agrees key)
    (hHolds : ∀ (k : Str) (w : Value), Holds u k w ↔ Holds t k w) : u.Agrees key :=
  fun k w hu hSerial => hKey k w ((hHolds k w).mp hu) hSerial

/-- An insert sets the map at `key` and answers whether `key` was in it. -/
theorem Inv.insert (hInv : t.Inv) (hKey : t.Agrees key) :
    (t.insert key v).1.Inv ∧ ((t.insert key v).2 = (t.lookup key).isSome) ∧
      (∀ (k : Str) (w : Value), Holds (t.insert key v).1 k w ↔
        (k = key ∧ w = v) ∨ (k.serial ≠ key.serial ∧ Holds t k w)) ∧
      ∀ k, (t.insert key v).1.lookup k = if k.serial = key.serial then some v else t.lookup k := by
  obtain ⟨hRoomInv, hCap, hRoom, hRoomHolds⟩ := hInv.room
  have hRoomKey := hKey.of_holds_iff hRoomHolds
  have hInv' := hRoomInv.place (v := v) hCap hRoom hRoomKey
  have hHolds : ∀ (k : Str) (w : Value), Holds (t.room.place key v).1 k w ↔
      (k = key ∧ w = v) ∨ (k.serial ≠ key.serial ∧ Holds t k w) := by
    intro k w
    rw [holds_place_iff hRoomInv hCap hRoomKey, hRoomHolds]
  rw [insert_eq]
  refine ⟨hInv', ?_, hHolds, lookup_eq_of_holds_iff hInv hInv' fun k w => ?_⟩
  · rw [Bool.eq_iff_iff, place_snd_iff hRoomInv hCap hRoomKey, hInv.lookup_isSome_iff hKey]
    exact ⟨fun ⟨w, h⟩ => ⟨w, (hRoomHolds key w).mp h⟩, fun ⟨w, h⟩ => ⟨w, (hRoomHolds key w).mpr h⟩⟩
  · rw [hHolds]
    constructor
    · rintro (⟨rfl, rfl⟩ | hOld)
      · exact .inl ⟨rfl, rfl, rfl⟩
      · exact .inr hOld
    · rintro (⟨-, rfl, hw⟩ | hOld)
      · exact .inl ⟨rfl, (Option.some.inj hw).symm⟩
      · exact .inr hOld

/-- A delete removes `key` from the map and answers whether it was in it. -/
theorem Inv.erase (hInv : t.Inv) (hKey : t.Agrees key) :
    (t.erase key).1.Inv ∧ ((t.erase key).2 = (t.lookup key).isSome) ∧
      (∀ (k : Str) (w : Value), Holds (t.erase key).1 k w → Holds t k w) ∧
      ∀ k, (t.erase key).1.lookup k = if k.serial = key.serial then none else t.lookup k := by
  rcases hInv.erase_cases hKey with ⟨q, w₀, hq, hErase⟩ | ⟨hNone, hErase⟩
  · rw [hErase]
    have hInv' := hInv.bury hq
    have hIsSome : (t.lookup key).isSome = true := (hInv.lookup_isSome_iff hKey).mpr ⟨w₀, q, hq⟩
    refine ⟨hInv', hIsSome.symm, fun k w h => ((holds_bury_iff hInv hq).mp h).2,
      lookup_eq_of_holds_iff hInv hInv' fun k w => ?_⟩
    rw [holds_bury_iff hInv hq]
    constructor
    · exact .inr
    · rintro (⟨-, -, hw⟩ | hOld)
      · cases hw
      · exact hOld
  · rw [hErase]
    have hIsSome : (t.lookup key).isSome = false := by
      rw [← Bool.not_eq_true, hInv.lookup_isSome_iff hKey]
      exact fun ⟨w, h⟩ => hNone w h
    refine ⟨hInv, hIsSome.symm, fun k w h => h, fun k => ?_⟩
    split
    · rename_i hSerial
      -- The object of `key` was in the map neither before nor after.
      exact hInv.lookup_eq_none fun k₀ w hSerial₀ hHolds =>
        hNone w ((hKey k₀ w hHolds (hSerial₀.trans hSerial)) ▸ hHolds)
    · rfl

end Operations

/-! ## The tables inserts and deletes build -/

/-- The tables that inserts and deletes with keys from `keys`, or with a missing key, build from
the empty table. Looking up, listing and freeing build no new table: freeing gives the empty
one. -/
inductive Built (keys : Str → Prop) : Table → Prop
  | empty : Built keys Table.empty
  | insert {t : Table} (key : Option Str) (v : Value) :
      (∀ k ∈ key, keys k) → Built keys t → Built keys (t.insertKey key v).1
  | erase {t : Table} (key : Option Str) :
      (∀ k ∈ key, keys k) → Built keys t → Built keys (t.eraseKey key).1

section Built

variable {keys : Str → Prop}

theorem inv_empty : Table.empty.Inv := by
  refine ⟨rfl, rfl, .inl rfl, Nat.le_refl 0, ?_, ?_⟩
  · intro i j k k' v v' hi
    cases hi
  · intro q k v hq
    cases hq

/-- A built table is sound, and its live keys are drawn from `keys`. -/
theorem Built.inv_keys (hKeys : ∀ a b, keys a → keys b → a.serial = b.serial → a = b) {t : Table}
    (hBuilt : Built keys t) : t.Inv ∧ ∀ (k : Str) (w : Value), Holds t k w → keys k := by
  induction hBuilt with
  | empty => exact ⟨inv_empty, fun k w ⟨i, hi⟩ => by cases hi⟩
  | insert key v hKey _ ih =>
    cases key with
    | none => exact ih
    | some key =>
      have hAgrees : _ := fun k w hHolds hSerial =>
        hKeys k key (ih.2 k w hHolds) (hKey key rfl) hSerial
      obtain ⟨hInv, -, hHolds, -⟩ := ih.1.insert (v := v) hAgrees
      refine ⟨hInv, fun k w h => ?_⟩
      rcases (hHolds k w).mp h with ⟨rfl, -⟩ | ⟨-, hOld⟩
      · exact hKey k rfl
      · exact ih.2 k w hOld
  | erase key hKey _ ih =>
    cases key with
    | none => exact ih
    | some key =>
      have hAgrees : _ := fun k w hHolds hSerial =>
        hKeys k key (ih.2 k w hHolds) (hKey key rfl) hSerial
      obtain ⟨hInv, -, hHolds, -⟩ := ih.1.erase hAgrees
      exact ⟨hInv, fun k w h => ih.2 k w (hHolds k w h)⟩

end Built

end Table

end StackScript
