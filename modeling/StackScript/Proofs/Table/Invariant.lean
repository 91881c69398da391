import Mathlib
import StackScript.Proofs.Table.Probe

/-! # The table invariant

A table is sound when its counts are the numbers of live slots and tombstones, its capacity is
zero or eight doubled some times, live entries and tombstones fill at most three quarters of the
slots, no two live slots hold keys with one serial, and every live key sits on its own probe
path with no empty slot between its home slot and its own. From these facts alone the probe
of a key is determined: it stops at the slot holding the key, or at the first slot of its path
that is not live; and since a quarter of the slots stay empty, every walk meets an empty slot
within one lap.
-/

namespace StackScript

set_option autoImplicit false

/-- An empty slot. -/
def Slot.isEmpty : Slot → Bool
  | .empty => true
  | _ => false

namespace Table

/-- The sound tables. -/
structure Inv (t : Table) : Prop where
  count_eq : t.count = t.slots.toList.countP Slot.isLive
  tombstones_eq : t.tombstones = t.slots.toList.countP Slot.isTombstone
  capacity_eq : t.capacity = 0 ∨ ∃ j, t.capacity = 8 * 2 ^ j
  load : 4 * (t.count + t.tombstones) ≤ 3 * t.capacity
  unique : ∀ (i j : Nat) (k k' : Str) (v v' : Value), t.slots[i]? = some (.live k v) →
    t.slots[j]? = some (.live k' v') → k.serial = k'.serial → i = j
  paths : ∀ (q : Nat) (k : Str) (v : Value), t.slots[q]? = some (.live k v) →
    ∃ d < t.capacity, (k.hash.toNat + d) % t.capacity = q ∧
      ∀ p < d, t.slots[(k.hash.toNat + p) % t.capacity]? ≠ some .empty

/-! ## Positions on a lap -/

theorem position_lt {cap : Nat} (h p : Nat) (hCap : 0 < cap) : (h + p) % cap < cap :=
  Nat.mod_lt _ hCap

/-- Two steps of one lap land on different slots. -/
theorem position_ne {cap h p d : Nat} (hpd : p < d) (hd : d < cap) :
    (h + p) % cap ≠ (h + d) % cap := by
  intro hEq
  have hZero := Nat.sub_mod_eq_zero_of_mod_eq hEq.symm
  rw [show h + d - (h + p) = d - p by omega, Nat.mod_eq_of_lt (by omega)] at hZero
  omega

/-- Every slot lies on every lap. -/
theorem exists_position {cap : Nat} (h q : Nat) (hq : q < cap) : ∃ d < cap, (h + d) % cap = q := by
  refine ⟨(q + cap - h % cap) % cap, Nat.mod_lt _ (by omega), ?_⟩
  have hLt : h % cap < cap := Nat.mod_lt _ (by omega)
  rw [Nat.add_mod_mod, ← Nat.mod_add_mod]
  rw [show h % cap + (q + cap - h % cap) = q + cap by omega]
  simp [Nat.mod_eq_of_lt hq]

/-- The first step of a lap at which a property holds. -/
theorem exists_first {P : Nat → Prop} (e : Nat) (he : P e) :
    ∃ d ≤ e, P d ∧ ∀ p < d, ¬ P p := by
  induction e using Nat.strongRecOn with
  | _ e ih =>
    by_cases hPrev : ∃ p < e, P p
    · obtain ⟨p, hp, hP⟩ := hPrev
      obtain ⟨d, hd, hPd, hFirst⟩ := ih p hp hP
      exact ⟨d, by omega, hPd, hFirst⟩
    · exact ⟨e, Nat.le_refl e, he, fun p hp hP => hPrev ⟨p, hp, hP⟩⟩

/-! ## Counting slots -/

theorem countP_live_add_tombstone_add_empty (l : List Slot) :
    l.countP Slot.isLive + l.countP Slot.isTombstone + l.countP Slot.isEmpty = l.length := by
  induction l with
  | nil => rfl
  | cons s l ih =>
    cases s <;> simp [List.countP_cons, Slot.isLive, Slot.isTombstone, Slot.isEmpty] <;> omega

/-- A sound table with slots has an empty one: live slots and tombstones fill at most three
quarters. -/
theorem Inv.exists_empty {t : Table} (hInv : t.Inv) (hCap : 0 < t.capacity) :
    ∃ q < t.capacity, t.slots[q]? = some .empty := by
  have hSum := countP_live_add_tombstone_add_empty t.slots.toList
  have hLoad := hInv.load
  rw [hInv.count_eq, hInv.tombstones_eq] at hLoad
  have hPos : 0 < t.slots.toList.countP Slot.isEmpty := by
    simp only [Array.length_toList] at hSum
    simp only [capacity] at hLoad hCap
    omega
  obtain ⟨s, hMem, hEmpty⟩ := List.countP_pos_iff.mp hPos
  obtain ⟨q, hq⟩ := List.mem_iff_getElem?.mp hMem
  cases s with
  | empty =>
    refine ⟨q, ?_, by simpa using hq⟩
    have := (List.getElem?_eq_some_iff.mp hq).1
    simpa [capacity] using this
  | _ => simp [Slot.isEmpty] at hEmpty

/-- Every walk of a sound table meets an empty slot within one lap, so no probe runs on
forever. -/
theorem Inv.walk_meets_empty {t : Table} (hInv : t.Inv) (hCap : 0 < t.capacity) (h : Nat) :
    ∃ d < t.capacity, t.slots[(h + d) % t.capacity]? = some .empty := by
  obtain ⟨q, hq, hEmpty⟩ := hInv.exists_empty hCap
  obtain ⟨d, hd, rfl⟩ := exists_position h q hq
  exact ⟨d, hd, hEmpty⟩

/-! ## Where a probe stops -/

/-- `key` is live in the table with value `v`. -/
def Holds (t : Table) (key : Str) (v : Value) : Prop := ∃ i : Nat, t.slots[i]? = some (.live key v)

theorem slot_exists {t : Table} {x : Nat} (hx : x < t.capacity) : ∃ s, t.slots[x]? = some s :=
  ⟨t.slots[x], Array.getElem?_eq_getElem hx⟩

theorem Slot.passes_of_ne_empty {s : Slot} {key : Str} (hEmpty : s ≠ .empty)
    (hHolds : s.holds key = false) : s.passes key = true := by
  cases s with
  | empty => exact absurd rfl hEmpty
  | tombstone => rfl
  | live k v => simpa [Slot.holds, Slot.passes] using hHolds

theorem capacity_pos_of_slot {t : Table} {q : Nat} {s : Slot} (hq : t.slots[q]? = some s) :
    0 < t.capacity := by
  have := (Array.getElem?_eq_some_iff.mp hq).1
  simp only [capacity]
  omega

/-- A sound table with no live entries holds nothing. -/
theorem Inv.not_holds_of_count {t : Table} (hInv : t.Inv) (hZero : t.count = 0) {k : Str}
    {v : Value} : ¬ Holds t k v := by
  rintro ⟨i, hi⟩
  have hNone := hInv.count_eq
  rw [hZero, eq_comm, List.countP_eq_zero] at hNone
  exact hNone _ (List.mem_iff_getElem?.mpr ⟨i, by rw [Array.getElem?_toList]; exact hi⟩) rfl

/-- A sound table with live entries has slots. -/
theorem Inv.capacity_pos {t : Table} (hInv : t.Inv) (hCount : t.count ≠ 0) : 0 < t.capacity := by
  have hLive : 0 < t.slots.toList.countP Slot.isLive := by rw [← hInv.count_eq]; omega
  obtain ⟨s, hMem, -⟩ := List.countP_pos_iff.mp hLive
  obtain ⟨i, hi⟩ := List.mem_iff_getElem?.mp hMem
  exact capacity_pos_of_slot (q := i) (by rw [← Array.getElem?_toList]; exact hi)

/-- In a sound table the probe for a live key stops at its slot. -/
theorem Inv.probe_eq_of_live {t : Table} (hInv : t.Inv) {q : Nat} {k : Str} {v : Value}
    (hq : t.slots[q]? = some (.live k v)) : probe t.slots k = q := by
  obtain ⟨d, hd, hPos, hPath⟩ := hInv.paths q k v hq
  have hPast : ∀ p < d, ∃ s, t.slots[(k.hash.toNat + (0 + p)) % t.capacity]? = some s ∧
      s.passes k = true := by
    intro p hp
    rw [Nat.zero_add]
    obtain ⟨s, hs⟩ := slot_exists (position_lt k.hash.toNat p (capacity_pos_of_slot hq))
    refine ⟨s, hs, Slot.passes_of_ne_empty (fun hEmpty => hPath p hp (hEmpty ▸ hs)) ?_⟩
    cases s with
    | live k' v' =>
      -- Another slot of the lap cannot hold the key: it is held at `q` only.
      simp only [Slot.holds, beq_eq_false_iff_ne, ne_eq]
      intro hSerial
      have hSame := hInv.unique _ _ k' k v' v hs hq hSerial
      exact position_ne hp hd (hSame.trans hPos.symm)
    | _ => rfl
  have hAt : ∃ s, t.slots[(k.hash.toNat + (0 + d)) % t.capacity]? = some s ∧ s.holds k = true :=
    ⟨_, by rw [Nat.zero_add, hPos]; exact hq, by simp [Slot.holds]⟩
  have hWalk := probe_walk_eq_of_holds t.slots k t.capacity (r := none) hd hPast hAt
  rw [Nat.add_zero, Nat.zero_add, hPos] at hWalk
  exact hWalk

/-- In a sound table with slots, the probe for a key held nowhere stops at the first slot of its
lap that is not live. -/
theorem Inv.probe_eq_of_absent {t : Table} (hInv : t.Inv) (hCap : 0 < t.capacity) {key : Str}
    (hAbsent : ∀ (i : Nat) (s : Slot), t.slots[i]? = some s → s.holds key = false) :
    ∃ d < t.capacity, probe t.slots key = (key.hash.toNat + d) % t.capacity ∧
      (∀ p < d, ∃ s, t.slots[(key.hash.toNat + p) % t.capacity]? = some s ∧ s.isLive = true) ∧
      ∃ s, t.slots[(key.hash.toNat + d) % t.capacity]? = some s ∧ s.isLive = false := by
  obtain ⟨e, he, hEmpty⟩ := hInv.walk_meets_empty hCap key.hash.toNat
  obtain ⟨d, hde, ⟨s, hs, hFree⟩, hFirst⟩ := exists_first
    (P := fun d => ∃ s, t.slots[(key.hash.toNat + d) % t.capacity]? = some s ∧ s.isLive = false) e
    ⟨_, hEmpty, rfl⟩
  have hLive : ∀ p < d, ∃ s, t.slots[(key.hash.toNat + p) % t.capacity]? = some s ∧
      s.isLive = true := by
    intro p hp
    obtain ⟨s', hs'⟩ := slot_exists (position_lt key.hash.toNat p hCap)
    refine ⟨s', hs', ?_⟩
    cases hLive : s'.isLive
    · exact absurd ⟨s', hs', hLive⟩ (hFirst p hp)
    · rfl
  have hWalk := probe_walk_eq_of_absent t.slots key t.capacity hAbsent (h := key.hash.toNat)
    (d := d) (e := 0) (f := t.capacity) (by omega) (by simpa using hLive) ⟨s, by simpa using hs, hFree⟩
  rw [Nat.add_zero, Nat.zero_add] at hWalk
  exact ⟨d, by omega, hWalk, hLive, s, hs, hFree⟩

end Table

end StackScript
