import StackScript.Table

/-! # Linear probes

A probe starts at the home slot of a hash and walks on one slot at a time, wrapping around, for
at most one lap. This module describes where the two walks of a table stop, in terms of the
slots they pass, so that later proofs never unfold a walk again.

* `probe_walk_eq_of_holds`: past slots that are tombstones or hold other keys, the walk for a key
  stops at the slot holding it.
* `probe_walk_eq_of_absent`: when the key is held nowhere, the walk stops at the first slot that
  is not live: the first tombstone on the way, or the empty slot that ends the run.
* `findChars_walk_eq_of_chars`, `findChars_walk_eq_none`: the look-up by bytes finds the first
  live key with those bytes before an empty slot, and nothing when no live key has them.

The `p`-th slot of a walk from `h` is `(h + p) % cap`.
-/

namespace StackScript

set_option autoImplicit false

/-- A live slot. -/
def Slot.isLive : Slot → Bool
  | .live _ _ => true
  | _ => false

/-- A tombstone. -/
def Slot.isTombstone : Slot → Bool
  | .tombstone => true
  | _ => false

@[simp] theorem Slot.isLive_live (k : Str) (v : Value) : (Slot.live k v).isLive = true := rfl
@[simp] theorem Slot.isLive_tombstone : Slot.tombstone.isLive = false := rfl
@[simp] theorem Slot.isLive_empty : Slot.empty.isLive = false := rfl
@[simp] theorem Slot.isTombstone_live (k : Str) (v : Value) : (Slot.live k v).isTombstone = false :=
  rfl
@[simp] theorem Slot.isTombstone_tombstone : Slot.tombstone.isTombstone = true := rfl
@[simp] theorem Slot.isTombstone_empty : Slot.empty.isTombstone = false := rfl

/-- A live slot whose key has the serial of `key`: the same object. -/
def Slot.holds (key : Str) : Slot → Bool
  | .live k _ => k.serial == key.serial
  | _ => false

/-- A slot a probe for `key` walks on past: a tombstone, or a live slot of another key. -/
def Slot.passes (key : Str) : Slot → Bool
  | .live k _ => k.serial != key.serial
  | .tombstone => true
  | .empty => false

/-- A slot the look-up by bytes walks on past: a tombstone, or a live key with other bytes. -/
def Slot.passesChars (chars : Bytes) : Slot → Bool
  | .live k _ => k.chars != chars
  | .tombstone => true
  | .empty => false

namespace Table

theorem next_position (h p cap : Nat) : ((h + p) % cap + 1) % cap = (h + (p + 1)) % cap := by
  rw [Nat.mod_add_mod, Nat.add_assoc]

/-! ## The probe of an insert or a look-up by key -/

section Probe

variable (slots : Array Slot) (key : Str) (cap : Nat)

-- Each lemma of the section takes one step of the walk and reads the slot it stands on: the
-- equations of the walk and of the slot tests are made once, here, and not by each lemma at once.
attribute [local simp] probe.walk Slot.passes Slot.holds

theorem probe_walk_passes {i fuel : Nat} {reuse : Option Nat} {s : Slot} (hSlot : slots[i]? = some s)
    (hPass : s.passes key = true) :
    probe.walk slots key cap i (fuel + 1) reuse =
      probe.walk slots key cap ((i + 1) % cap) fuel
        (if s.isTombstone then reuse <|> some i else reuse) := by
  cases s with
  | empty => simp at hPass
  | tombstone => simp [hSlot, Slot.isTombstone]
  | live k v =>
    simp only [Slot.passes, bne_iff_ne, ne_eq] at hPass
    simp [hSlot, hPass, Slot.isTombstone]

theorem probe_walk_holds {i fuel : Nat} {reuse : Option Nat} {s : Slot} (hSlot : slots[i]? = some s)
    (hHolds : s.holds key = true) : probe.walk slots key cap i (fuel + 1) reuse = i := by
  cases s with
  | live k v =>
    simp only [Slot.holds, beq_iff_eq] at hHolds
    simp [hSlot, hHolds]
  | _ => simp at hHolds

theorem probe_walk_empty {i fuel : Nat} {reuse : Option Nat} (hSlot : slots[i]? = some .empty) :
    probe.walk slots key cap i (fuel + 1) reuse = reuse.getD i := by
  simp [hSlot]

/-- Past slots it walks on through, the probe for a key stops at the slot that holds it. -/
theorem probe_walk_eq_of_holds {h d : Nat} :
    ∀ {e f : Nat} {r : Option Nat}, d < f →
      (∀ p < d, ∃ s, slots[(h + (e + p)) % cap]? = some s ∧ s.passes key = true) →
      (∃ s, slots[(h + (e + d)) % cap]? = some s ∧ s.holds key = true) →
      probe.walk slots key cap ((h + e) % cap) f r = (h + (e + d)) % cap := by
  induction d with
  | zero =>
    intro e fuel reuse hd _ hAt
    obtain ⟨fuel, rfl⟩ : ∃ f, fuel = f + 1 := ⟨fuel - 1, by omega⟩
    obtain ⟨s, hSlot, hHolds⟩ := hAt
    rw [Nat.add_zero] at hSlot
    rw [probe_walk_holds slots key cap hSlot hHolds]
    rfl
  | succ d ih =>
    intro e fuel reuse hd hPast hAt
    obtain ⟨fuel, rfl⟩ : ∃ f, fuel = f + 1 := ⟨fuel - 1, by omega⟩
    obtain ⟨s, hSlot, hPass⟩ := hPast 0 (by omega)
    rw [Nat.add_zero] at hSlot
    rw [probe_walk_passes slots key cap hSlot hPass, next_position]
    have hShift : ∀ p, e + 1 + p = e + (p + 1) := by omega
    refine (ih (by omega) (fun p hp => ?_) ?_).trans (by rw [hShift])
    · rw [hShift]
      exact hPast (p + 1) (by omega)
    · rw [hShift]
      exact hAt

/-- A probe that remembers a tombstone answers it, when the key is held nowhere. -/
theorem probe_walk_some_of_absent
    (hAbsent : ∀ (i : Nat) (s : Slot), slots[i]? = some s → s.holds key = false)
    (r : Nat) : ∀ (i fuel : Nat), probe.walk slots key cap i fuel (some r) = r := by
  intro i fuel
  induction fuel generalizing i with
  | zero => rfl
  | succ fuel ih =>
    rcases hSlot : slots[i]? with _ | s
    · simp [hSlot]
    · cases s with
      | empty => simp [hSlot]
      | tombstone => simp [hSlot, ih]
      | live k v =>
        have hOther := hAbsent i _ hSlot
        simp only [Slot.holds, beq_eq_false_iff_ne, ne_eq] at hOther
        simp [hSlot, hOther, ih]

/-- When the key is held nowhere, the probe stops at the first slot on its way that is not
live. -/
theorem probe_walk_eq_of_absent
    (hAbsent : ∀ (i : Nat) (s : Slot), slots[i]? = some s → s.holds key = false)
    {h d : Nat} :
    ∀ {e f : Nat}, d < f →
      (∀ p < d, ∃ s, slots[(h + (e + p)) % cap]? = some s ∧ s.isLive = true) →
      (∃ s, slots[(h + (e + d)) % cap]? = some s ∧ s.isLive = false) →
      probe.walk slots key cap ((h + e) % cap) f none = (h + (e + d)) % cap := by
  induction d with
  | zero =>
    intro e fuel hd _ hAt
    obtain ⟨fuel, rfl⟩ : ∃ f, fuel = f + 1 := ⟨fuel - 1, by omega⟩
    obtain ⟨s, hSlot, hFree⟩ := hAt
    rw [Nat.add_zero] at hSlot ⊢
    cases s with
    | empty => rw [probe_walk_empty slots key cap hSlot]; rfl
    | tombstone =>
      rw [probe_walk_passes slots key cap hSlot rfl]
      exact probe_walk_some_of_absent slots key cap hAbsent _ _ _
    | live k v => simp [Slot.isLive] at hFree
  | succ d ih =>
    intro e fuel hd hPast hAt
    obtain ⟨fuel, rfl⟩ : ∃ f, fuel = f + 1 := ⟨fuel - 1, by omega⟩
    obtain ⟨s, hSlot, hLive⟩ := hPast 0 (by omega)
    rw [Nat.add_zero] at hSlot
    have hPass : s.passes key = true := by
      cases s with
      | live k v =>
        have hOther := hAbsent _ _ hSlot
        simp only [Slot.holds, beq_eq_false_iff_ne] at hOther
        simpa using hOther
      | _ => simp [Slot.isLive] at hLive
    have hNotTomb : s.isTombstone = false := by
      cases s with
      | live k v => rfl
      | _ => simp at hLive
    rw [probe_walk_passes slots key cap hSlot hPass, next_position, hNotTomb, if_neg (by simp)]
    have hShift : ∀ p, e + 1 + p = e + (p + 1) := by omega
    refine (ih (by omega) (fun p hp => ?_) ?_).trans (by rw [hShift])
    · rw [hShift]
      exact hPast (p + 1) (by omega)
    · rw [hShift]
      exact hAt

end Probe

/-! ## The look-up by bytes -/

section Chars

variable (t : Table) (chars : Bytes) (cap : Nat)

-- As for the probe: the equations of the look-up's walk and of its slot test are made once.
attribute [local simp] findChars?.walk Slot.passesChars

theorem findChars_walk_passes {i fuel : Nat} {s : Slot} (hSlot : t.slots[i]? = some s)
    (hPass : s.passesChars chars = true) :
    findChars?.walk t chars cap i (fuel + 1) = findChars?.walk t chars cap ((i + 1) % cap) fuel := by
  cases s with
  | empty => simp at hPass
  | tombstone => simp [hSlot]
  | live k v =>
    simp only [Slot.passesChars, bne_iff_ne, ne_eq] at hPass
    simp [hSlot, hPass]

/-- Past tombstones and keys with other bytes, the look-up stops at the first live key with
the bytes sought. -/
theorem findChars_walk_eq_of_chars {h d : Nat} {k : Str} {v : Value} :
    ∀ {e fuel : Nat}, d < fuel →
      (∀ p < d, ∃ s, t.slots[(h + (e + p)) % cap]? = some s ∧ s.passesChars chars = true) →
      t.slots[(h + (e + d)) % cap]? = some (.live k v) → k.chars = chars →
      findChars?.walk t chars cap ((h + e) % cap) fuel = some k := by
  induction d with
  | zero =>
    intro e fuel hd _ hAt hChars
    obtain ⟨fuel, rfl⟩ : ∃ f, fuel = f + 1 := ⟨fuel - 1, by omega⟩
    rw [Nat.add_zero] at hAt
    simp [hAt, hChars]
  | succ d ih =>
    intro e fuel hd hPast hAt hChars
    obtain ⟨fuel, rfl⟩ : ∃ f, fuel = f + 1 := ⟨fuel - 1, by omega⟩
    obtain ⟨s, hSlot, hPass⟩ := hPast 0 (by omega)
    rw [Nat.add_zero] at hSlot
    rw [findChars_walk_passes t chars cap hSlot hPass, next_position]
    have hShift : ∀ p, e + 1 + p = e + (p + 1) := by omega
    refine ih (by omega) (fun p hp => ?_) ?_ hChars
    · rw [hShift]
      exact hPast (p + 1) (by omega)
    · rw [hShift]
      exact hAt

/-- The look-up by bytes finds nothing when no live key has those bytes. -/
theorem findChars_walk_eq_none
    (hNone : ∀ (i : Nat) (k : Str) (v : Value), t.slots[i]? = some (.live k v) → k.chars ≠ chars) :
    ∀ (i fuel : Nat), findChars?.walk t chars cap i fuel = none := by
  intro i fuel
  induction fuel generalizing i with
  | zero => rfl
  | succ fuel ih =>
    rcases hSlot : t.slots[i]? with _ | s
    · simp [hSlot]
    · cases s with
      | empty => simp [hSlot]
      | tombstone => simp [hSlot, ih]
      | live k v => simp [hSlot, hNone i k v hSlot, ih]

end Chars

end Table

end StackScript
