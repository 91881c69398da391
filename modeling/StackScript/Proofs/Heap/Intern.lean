import StackScript.Heap
import StackScript.Proofs.Table.Refinement

/-! # Interning

A heap is sound when its intern table is a sound table whose keys have distinct bytes and
serials below the heap's counter. Then the look-up by bytes is exact: it answers the live key
with those bytes, and nothing when there is none (`Heap.WF.lookup?_eq_some_iff`,
`Heap.WF.lookup?_eq_none_iff`). Interning keeps a heap sound and changes the look-up only at
the bytes interned (`Heap.WF.intern`), so the look-ups of a sound heap behave as a map from
byte strings to string objects that only grows.
-/

namespace StackScript

set_option autoImplicit false

open Table

namespace Heap

/-- The sound heaps. -/
structure WF (h : Heap) : Prop where
  inv : h.strings.Inv
  serial_lt : ∀ (k : Str) (v : Value), Holds h.strings k v → k.serial < h.nextSerial
  chars_inj : ∀ (k k' : Str) (v v' : Value), Holds h.strings k v → Holds h.strings k' v' →
    k.chars = k'.chars → k = k'

theorem wf_empty : Heap.empty.WF :=
  ⟨inv_empty, fun _ _ ⟨_, hi⟩ => by simp [Heap.empty, Table.empty] at hi,
    fun _ _ _ _ ⟨_, hi⟩ => by simp [Heap.empty, Table.empty] at hi⟩

/-! ## The look-up by bytes -/

theorem findChars_walk_sound {t : Table} {chars : Bytes} {cap : Nat} {k : Str} :
    ∀ {i fuel : Nat}, findChars?.walk t chars cap i fuel = some k →
      (∃ v, Holds t k v) ∧ k.chars = chars := by
  intro i fuel
  induction fuel generalizing i with
  | zero => simp [findChars?.walk]
  | succ fuel ih =>
    intro hWalk
    rcases hSlot : t.slots[i]? with _ | s
    · simp [findChars?.walk, hSlot] at hWalk
    · cases s with
      | empty => simp [findChars?.walk, hSlot] at hWalk
      | tombstone =>
        simp only [findChars?.walk, hSlot] at hWalk
        exact ih hWalk
      | live k' v =>
        simp only [findChars?.walk, hSlot] at hWalk
        split at hWalk
        · rename_i hChars
          cases hWalk
          exact ⟨⟨v, i, hSlot⟩, beq_iff_eq.mp hChars⟩
        · exact ih hWalk

variable {h : Heap}

theorem WF.lookup?_sound {chars : Bytes} {s : Str} (hl : h.lookup? chars = some s) :
    (∃ v, Holds h.strings s v) ∧ s.chars = chars := by
  unfold lookup? findChars? at hl
  split at hl
  · cases hl
  · exact findChars_walk_sound hl

/-- A string a heap finds for some bytes it finds by its own. -/
theorem lookup?_self {chars : Bytes} {s : Str} (hl : h.lookup? chars = some s) :
    h.lookup? s.chars = some s := by
  rw [(WF.lookup?_sound hl).2]
  exact hl

/-- A sound heap finds every interned string by its bytes. -/
theorem WF.lookup?_of_holds (hWF : h.WF) {s : Str} {v : Value} (hHolds : Holds h.strings s v) :
    h.lookup? s.chars = some s := by
  obtain ⟨q, hq⟩ := hHolds
  have hInv := hWF.inv
  have hCount : h.strings.count ≠ 0 := fun hZero => hInv.not_holds_of_count hZero ⟨q, hq⟩
  obtain ⟨d, hd, hPos, hPath⟩ := hInv.paths q s v hq
  have hCap := capacity_pos_of_slot hq
  -- The slots before `q` on the path are tombstones or keys with other bytes.
  have hPast : ∀ p < d, ∃ s', h.strings.slots[(s.hash.toNat + (0 + p)) % h.strings.capacity]? = some s' ∧
      s'.passesChars s.chars = true := by
    intro p hp
    rw [Nat.zero_add]
    obtain ⟨s', hs'⟩ := slot_exists (position_lt s.hash.toNat p hCap)
    refine ⟨s', hs', ?_⟩
    cases s' with
    | empty => exact absurd hs' (hPath p hp)
    | tombstone => rfl
    | live k w =>
      simp only [Slot.passesChars, bne_iff_ne, ne_eq]
      intro hChars
      have hSame := hWF.chars_inj k s w v ⟨_, hs'⟩ ⟨q, hq⟩ hChars
      subst hSame
      exact position_ne hp hd ((hInv.unique _ _ k k w v hs' hq rfl).trans hPos.symm)
  have hAt : h.strings.slots[(s.hash.toNat + (0 + d)) % h.strings.capacity]? = some (.live s v) := by
    rw [Nat.zero_add, hPos]
    exact hq
  have hWalk := findChars_walk_eq_of_chars h.strings s.chars h.strings.capacity hd hPast hAt rfl
  rw [Nat.add_zero] at hWalk
  unfold lookup? findChars?
  rw [if_neg hCount]
  exact hWalk

theorem WF.lookup?_eq_some_iff (hWF : h.WF) {chars : Bytes} {s : Str} :
    h.lookup? chars = some s ↔ (∃ v, Holds h.strings s v) ∧ s.chars = chars := by
  constructor
  · exact WF.lookup?_sound
  · rintro ⟨⟨v, hHolds⟩, rfl⟩
    exact hWF.lookup?_of_holds hHolds

theorem WF.lookup?_eq_none_iff (hWF : h.WF) {chars : Bytes} :
    h.lookup? chars = none ↔ ∀ (k : Str) (v : Value), Holds h.strings k v → k.chars ≠ chars := by
  constructor
  · intro hNone k v hHolds hChars
    rw [← hChars, hWF.lookup?_of_holds hHolds] at hNone
    cases hNone
  · intro hAbsent
    cases hl : h.lookup? chars with
    | none => rfl
    | some s =>
      obtain ⟨⟨v, hHolds⟩, hChars⟩ := WF.lookup?_sound hl
      exact absurd hChars (hAbsent s v hHolds)

/-- What a sound heap finds by bytes has those bytes and a serial the counter has passed. -/
theorem WF.lookup?_spec (hWF : h.WF) {chars : Bytes} {s : Str} (hl : h.lookup? chars = some s) :
    s.chars = chars ∧ s.serial < h.nextSerial := by
  obtain ⟨⟨v, hHolds⟩, hChars⟩ := WF.lookup?_sound hl
  exact ⟨hChars, hWF.serial_lt s v hHolds⟩

/-- Strings found for two byte strings are one object only when the bytes are equal. -/
theorem WF.lookup?_serial_inj (hWF : h.WF) {c c' : Bytes} {s s' : Str}
    (hl : h.lookup? c = some s) (hl' : h.lookup? c' = some s') (hSerial : s.serial = s'.serial) :
    c = c' := by
  obtain ⟨⟨v, i, hi⟩, rfl⟩ := WF.lookup?_sound hl
  obtain ⟨⟨v', j, hj⟩, rfl⟩ := WF.lookup?_sound hl'
  have hij := hWF.inv.unique i j s s' v v' hi hj hSerial
  subst hij
  rw [hi] at hj
  cases hj
  rfl

/-! ## Interning -/

theorem intern_of_lookup? {chars : Bytes} {s : Str} (hl : h.lookup? chars = some s) :
    h.intern chars = (h, s) := by
  simp [intern, hl]

theorem intern_of_lookup?_none {chars : Bytes} (hl : h.lookup? chars = none) :
    h.intern chars = (⟨(h.strings.insert ⟨h.nextSerial, chars⟩ .nil).1,
      h.objects.push ⟨h.nextSerial, chars⟩, h.nextSerial + 1⟩, ⟨h.nextSerial, chars⟩) := by
  simp [intern, hl]

/-- Interning keeps a heap sound, finds the interned bytes at the string it answers, and finds
all other bytes as before. A string new to the heap takes the counter's serial. -/
theorem WF.intern (hWF : h.WF) (chars : Bytes) :
    (h.intern chars).1.WF ∧
      (∀ c, (h.intern chars).1.lookup? c = if c = chars then some (h.intern chars).2 else h.lookup? c) ∧
      (h.lookup? chars = none → (h.intern chars).2.serial = h.nextSerial) ∧
      h.nextSerial ≤ (h.intern chars).1.nextSerial := by
  cases hl : h.lookup? chars with
  | some s =>
    rw [intern_of_lookup? hl]
    refine ⟨hWF, fun c => ?_, (fun hNone => nomatch hNone), Nat.le_refl _⟩
    split
    · subst c
      exact hl
    · rfl
  | none =>
    rw [intern_of_lookup?_none hl]
    generalize hs : (⟨h.nextSerial, chars⟩ : Str) = s
    have hsSerial : s.serial = h.nextSerial := by rw [← hs]
    have hsChars : s.chars = chars := by rw [← hs]
    -- Every live key is older than the new string, so inserting it touches no other key.
    have hKey : h.strings.Agrees s := fun k w hHolds hSerial =>
      absurd (hSerial.trans hsSerial) (Nat.ne_of_lt (hWF.serial_lt k w hHolds))
    obtain ⟨hInv', -, hHolds', -⟩ := hWF.inv.insert (v := .nil) hKey
    have hAbsent := (hWF.lookup?_eq_none_iff).mp hl
    have hWF' : Heap.WF ⟨(h.strings.insert s .nil).1, h.objects.push s, h.nextSerial + 1⟩ := by
      refine ⟨hInv', fun k v hk => ?_, fun k k' v v' hk hk' hChars => ?_⟩
      · rcases (hHolds' k v).mp hk with ⟨rfl, -⟩ | ⟨-, hOld⟩
        · exact hsSerial ▸ Nat.lt_succ_self _
        · exact Nat.lt_succ_of_lt (hWF.serial_lt k v hOld)
      · rcases (hHolds' k v).mp hk with ⟨rfl, -⟩ | ⟨-, hOld⟩ <;>
        rcases (hHolds' k' v').mp hk' with ⟨rfl, -⟩ | ⟨-, hOld'⟩
        · rfl
        · exact absurd (hChars.symm.trans hsChars) (hAbsent k' v' hOld')
        · exact absurd (hChars.trans hsChars) (hAbsent k v hOld)
        · exact hWF.chars_inj k k' v v' hOld hOld' hChars
    refine ⟨hWF', fun c => ?_, fun _ => hsSerial, Nat.le_succ _⟩
    split
    · rename_i hc
      rw [hc, ← hsChars]
      exact hWF'.lookup?_of_holds ((hHolds' s .nil).mpr (.inl ⟨rfl, rfl⟩))
    · rename_i hc
      cases hOld : h.lookup? c with
      | none =>
        refine (hWF'.lookup?_eq_none_iff).mpr fun k v hk hChars => ?_
        rcases (hHolds' k v).mp hk with ⟨rfl, -⟩ | ⟨-, hk⟩
        · exact hc (hChars.symm.trans hsChars)
        · exact (hWF.lookup?_eq_none_iff.mp hOld) k v hk hChars
      | some s' =>
        obtain ⟨⟨v, hHolds⟩, rfl⟩ := WF.lookup?_sound hOld
        have hSerial : s'.serial ≠ s.serial := hsSerial ▸ Nat.ne_of_lt (hWF.serial_lt s' v hHolds)
        exact hWF'.lookup?_of_holds ((hHolds' s' v).mpr (.inr ⟨hSerial, hHolds⟩))

/-- What a sound heap finds stays found after interning. -/
theorem WF.lookup?_intern_of_some (hWF : h.WF) {c x : Bytes} {s : Str} (hl : h.lookup? c = some s) :
    (h.intern x).1.lookup? c = some s := by
  rw [(hWF.intern x).2.1 c]
  split
  · rename_i hc
    subst hc
    rw [intern_of_lookup? hl]
  · exact hl

/-! ## Growing heaps -/

/-- `h'` is `h` grown: when `h` is sound, `h'` is sound and finds every string `h` finds. -/
def Grows (h h' : Heap) : Prop :=
  h.WF → h'.WF ∧ ∀ (c : Bytes) (s : Str), h.lookup? c = some s → h'.lookup? c = some s

theorem Grows.refl (h : Heap) : h.Grows h := fun hWF => ⟨hWF, fun _ _ hl => hl⟩

theorem Grows.trans {h₁ h₂ h₃ : Heap} (h₁₂ : h₁.Grows h₂) (h₂₃ : h₂.Grows h₃) : h₁.Grows h₃ :=
  fun hWF =>
    have ⟨hWF₂, hFind₂⟩ := h₁₂ hWF
    have ⟨hWF₃, hFind₃⟩ := h₂₃ hWF₂
    ⟨hWF₃, fun c s hl => hFind₃ c s (hFind₂ c s hl)⟩

theorem grows_intern (h : Heap) (chars : Bytes) : h.Grows (h.intern chars).1 :=
  fun hWF => ⟨(hWF.intern chars).1, fun _ _ hl => hWF.lookup?_intern_of_some hl⟩

end Heap

end StackScript
