import StackScript.Proofs.Table.Update

/-! # Growing keeps the table sound

Before an insert would fill more than three quarters of the slots, the table moves its live
entries, in slot order, into a fresh array of twice the capacity (at least 8). Each move is a
write of a key held nowhere into a table without tombstones: the fresh array holds only the keys
already moved, and no two old slots hold one key. So each move is a `fill`, and `Refill` is what
the moves keep. The main statement is `Inv.room`: the table an insert works on is sound, has a
free slot for one more entry, and holds the same entries as before.
-/

namespace StackScript

set_option autoImplicit false

/-- Two slots that do not hold one key. -/
def Slot.apart : Slot → Slot → Prop
  | .live k _, .live k' _ => k.serial ≠ k'.serial
  | _, _ => True

namespace Table

/-- One step of a rehash: a live entry of the old slots is placed anew, anything else dropped. -/
def rehashStep (t : Table) : Slot → Table
  | .live k v =>
    { t with count := t.count + 1, slots := t.slots.setIfInBounds (probe t.slots k) (.live k v) }
  | _ => t

theorem rehash_eq_foldl (slots : Array Slot) (c : Nat) :
    rehash slots c = slots.toList.foldl rehashStep ⟨0, 0, Array.replicate c .empty⟩ := by
  rw [Array.foldl_toList]
  rfl

/-- The state of a rehash into `c` slots, with the old slots `l` still to move: the new table is
sound, has no tombstones, and has room for every live entry of `l`, whose keys are distinct and
not in it yet. -/
structure Refill (c : Nat) (l : List Slot) (u : Table) : Prop where
  inv : u.Inv
  tombstones_eq : u.tombstones = 0
  capacity_eq : u.capacity = c
  load : 4 * (u.count + l.countP Slot.isLive) ≤ 3 * c
  apart : l.Pairwise Slot.apart
  fresh : ∀ (k : Str) (v : Value), .live k v ∈ l →
    ∀ (i : Nat) (s : Slot), u.slots[i]? = some s → s.holds k = false

section Refill

variable {c : Nat} {u : Table}

theorem Inv.not_tombstone (hInv : u.Inv) (hNone : u.tombstones = 0) {i : Nat} {s : Slot}
    (hs : u.slots[i]? = some s) : s.isTombstone = false := by
  have hCount := hInv.tombstones_eq
  rw [hNone, eq_comm, List.countP_eq_zero] at hCount
  have hMem : s ∈ u.slots.toList :=
    List.mem_iff_getElem?.mpr ⟨i, by rw [Array.getElem?_toList]; exact hs⟩
  simpa using hCount s hMem

/-- Moving one live entry is a `fill` of the first free slot of its lap. -/
theorem Refill.step_live {l : List Slot} {k : Str} {v : Value} (h : Refill c (.live k v :: l) u) :
    Refill c l (rehashStep u (.live k v)) ∧ (rehashStep u (.live k v)).count = u.count + 1 ∧
      ∀ (k' : Str) (v' : Value),
        Holds (rehashStep u (.live k v)) k' v' ↔ (k' = k ∧ v' = v) ∨ Holds u k' v' := by
  have hLoad := h.load
  rw [List.countP_cons, Slot.isLive_live, if_pos rfl] at hLoad
  have hCap : 0 < u.capacity := by rw [h.capacity_eq]; omega
  have hAbsent := h.fresh k v List.mem_cons_self
  obtain ⟨d, hd, hProbe, hLive, s₀, hs₀, hFree⟩ := h.inv.probe_eq_of_absent hCap hAbsent
  -- With no tombstones about, the first slot that is not live is empty.
  have hEmpty : s₀ = .empty := by
    have hTomb := h.inv.not_tombstone h.tombstones_eq hs₀
    cases s₀ <;> simp_all
  subst hEmpty
  have hq : u.slots[probe u.slots k]? = some .empty := by rw [hProbe]; exact hs₀
  have hStep : rehashStep u (.live k v) = u.fill (probe u.slots k) k v := by
    simp [rehashStep, fill, tombstoneAt, hq, h.tombstones_eq]
  have hRoom : 4 * (u.count + u.tombstones + 1) ≤ 3 * u.capacity := by
    rw [h.tombstones_eq, h.capacity_eq]
    omega
  have hInv := h.inv.fill (v := v) hRoom hAbsent hd hProbe.symm hLive hq rfl
  rw [hStep]
  refine ⟨⟨hInv, ?_, ?_, ?_, (List.pairwise_cons.mp h.apart).2, ?_⟩, rfl,
    fun k' v' => holds_fill_iff hq rfl⟩
  · simp [fill, tombstoneAt, hq, h.tombstones_eq]
  · rw [capacity_fill, h.capacity_eq]
  · show 4 * (u.count + 1 + l.countP Slot.isLive) ≤ 3 * c
    omega
  · -- A key still to move differs from `k`, and was not in the table before.
    intro k' v' hMem i s hs
    rcases slot_of_write hs with ⟨-, rfl⟩ | ⟨-, hs'⟩
    · have hApart := (List.pairwise_cons.mp h.apart).1 _ hMem
      simpa [Slot.apart, Slot.holds] using hApart
    · exact h.fresh k' v' (List.mem_cons_of_mem _ hMem) i s hs'

theorem Refill.step {l : List Slot} {s : Slot} (h : Refill c (s :: l) u) :
    Refill c l (rehashStep u s) ∧
      (rehashStep u s).count = u.count + (if s.isLive then 1 else 0) ∧
      ∀ (k : Str) (v : Value), Holds (rehashStep u s) k v ↔ Holds u k v ∨ s = .live k v := by
  cases s with
  | live k v =>
    obtain ⟨hRefill, hCount, hHolds⟩ := h.step_live
    refine ⟨hRefill, by simpa using hCount, fun k' v' => ?_⟩
    rw [hHolds]
    constructor
    · rintro (⟨rfl, rfl⟩ | hOld)
      · exact .inr rfl
      · exact .inl hOld
    · rintro (hOld | hEq)
      · exact .inr hOld
      · cases hEq
        exact .inl ⟨rfl, rfl⟩
  | tombstone =>
    refine ⟨⟨h.inv, h.tombstones_eq, h.capacity_eq, ?_, (List.pairwise_cons.mp h.apart).2,
      fun k v hMem => h.fresh k v (List.mem_cons_of_mem _ hMem)⟩, by simp [rehashStep],
      fun k v => by simp [rehashStep]⟩
    simpa [rehashStep] using h.load
  | empty =>
    refine ⟨⟨h.inv, h.tombstones_eq, h.capacity_eq, ?_, (List.pairwise_cons.mp h.apart).2,
      fun k v hMem => h.fresh k v (List.mem_cons_of_mem _ hMem)⟩, by simp [rehashStep],
      fun k v => by simp [rehashStep]⟩
    simpa [rehashStep] using h.load

/-- A whole rehash: every live entry of the old slots is moved, and nothing else. -/
theorem Refill.run : ∀ {l : List Slot} {u : Table}, Refill c l u →
    Refill c [] (l.foldl rehashStep u) ∧
      (l.foldl rehashStep u).count = u.count + l.countP Slot.isLive ∧
      ∀ (k : Str) (v : Value), Holds (l.foldl rehashStep u) k v ↔ Holds u k v ∨ .live k v ∈ l
  | [], _, h => ⟨h, rfl, fun _ _ => by simp⟩
  | s :: l, u, h => by
    obtain ⟨hStep, hCount, hHolds⟩ := h.step
    obtain ⟨hRun, hRunCount, hRunHolds⟩ := Refill.run hStep
    refine ⟨hRun, ?_, fun k v => ?_⟩
    · rw [List.foldl_cons, hRunCount, hCount, List.countP_cons]
      omega
    · rw [List.foldl_cons, hRunHolds, hHolds, List.mem_cons]
      constructor
      · rintro ((hOld | rfl) | hMem)
        · exact .inl hOld
        · exact .inr (.inl rfl)
        · exact .inr (.inr hMem)
      · rintro (hOld | rfl | hMem)
        · exact .inl (.inl hOld)
        · exact .inl (.inr rfl)
        · exact .inr hMem

end Refill

/-! ## The fresh array -/

section Fresh

variable {c : Nat}

theorem slot_replicate {i : Nat} {s : Slot} (hs : (Array.replicate c Slot.empty)[i]? = some s) :
    s = .empty := by
  rw [Array.getElem?_replicate] at hs
  split at hs
  · exact (Option.some.inj hs).symm
  · cases hs

/-- A fresh array of slots is a sound table. -/
theorem inv_replicate (hc : c = 0 ∨ ∃ j, c = 8 * 2 ^ j) :
    (⟨0, 0, Array.replicate c .empty⟩ : Table).Inv := by
  refine ⟨by simp [List.countP_replicate], by simp [List.countP_replicate],
    by simpa [capacity] using hc, Nat.zero_le _, ?_, ?_⟩
  · intro i j k k' v v' hi
    cases slot_replicate hi
  · intro q k v hq
    cases slot_replicate hq

theorem not_holds_replicate {k : Str} {v : Value} :
    ¬ Holds ⟨0, 0, Array.replicate c .empty⟩ k v := by
  rintro ⟨i, hi⟩
  cases slot_replicate hi

end Fresh

/-! ## The table an insert works on -/

section Room

variable {t : Table}

theorem holds_iff_mem {k : Str} {v : Value} : Holds t k v ↔ .live k v ∈ t.slots.toList := by
  rw [List.mem_iff_getElem?]
  simp only [Array.getElem?_toList]
  rfl

/-- The old slots of a sound table hold distinct keys. -/
theorem Inv.pairwise_apart (hInv : t.Inv) : t.slots.toList.Pairwise Slot.apart := by
  rw [List.pairwise_iff_getElem]
  intro i j hi hj hij
  have hi' : t.slots[i]? = some t.slots.toList[i] := by
    rw [← Array.getElem?_toList]
    exact List.getElem?_eq_getElem hi
  have hj' : t.slots[j]? = some t.slots.toList[j] := by
    rw [← Array.getElem?_toList]
    exact List.getElem?_eq_getElem hj
  revert hi' hj'
  cases t.slots.toList[i] <;> cases t.slots.toList[j] <;> simp only [Slot.apart] <;>
    try exact fun _ _ => trivial
  intro hi' hj' hSerial
  exact absurd (hInv.unique i j _ _ _ _ hi' hj' hSerial) (Nat.ne_of_lt hij)

/-- A rehash of a sound table into `c` slots, with room for its live entries. -/
theorem Inv.rehash {c : Nat} (hInv : t.Inv) (hc : c = 0 ∨ ∃ j, c = 8 * 2 ^ j)
    (hLoad : 4 * t.count ≤ 3 * c) :
    (rehash t.slots c).Inv ∧ (rehash t.slots c).tombstones = 0 ∧ (rehash t.slots c).capacity = c ∧
      (rehash t.slots c).count = t.count ∧
      ∀ (k : Str) (v : Value), Holds (rehash t.slots c) k v ↔ Holds t k v := by
  have hStart : Refill c t.slots.toList ⟨0, 0, Array.replicate c .empty⟩ := by
    refine ⟨inv_replicate hc, rfl, by simp [capacity], ?_, hInv.pairwise_apart, ?_⟩
    · rw [← hInv.count_eq]
      simpa using hLoad
    · intro k v _ i s hs
      cases slot_replicate hs
      rfl
  obtain ⟨hEnd, hCount, hHolds⟩ := hStart.run
  rw [rehash_eq_foldl]
  refine ⟨hEnd.inv, hEnd.tombstones_eq, hEnd.capacity_eq, ?_, fun k v => ?_⟩
  · rw [hCount, hInv.count_eq]
    simp
  · rw [hHolds, holds_iff_mem (t := t)]
    exact ⟨fun h => h.resolve_left not_holds_replicate, Or.inr⟩

theorem growCapacity_toNat (c : Nat) :
    (growCapacity c).toNat = if c < 8 then 8 else 2 * c := by
  unfold growCapacity
  split <;> split <;> omega

/-- The table an insert works on is sound, has a free slot for one more entry, and holds what
the table held. -/
theorem Inv.room (hInv : t.Inv) :
    t.room.Inv ∧ 0 < t.room.capacity ∧
      4 * (t.room.count + t.room.tombstones + 1) ≤ 3 * t.room.capacity ∧
      ∀ (k : Str) (v : Value), Holds t.room k v ↔ Holds t k v := by
  unfold Table.room
  split
  · -- Growing: from no slots to 8, or from `8 * 2 ^ j` slots to twice as many.
    have hLoad := hInv.load
    have hGrow : (growCapacity t.capacity).toNat = if t.capacity < 8 then 8 else 2 * t.capacity :=
      growCapacity_toNat t.capacity
    have hShape : t.capacity = 0 ∨ 8 ≤ t.capacity := by
      rcases hInv.capacity_eq with h0 | ⟨j, hj⟩
      · exact .inl h0
      · exact .inr (by rw [hj]; have := Nat.one_le_two_pow (n := j); omega)
    have hc : (growCapacity t.capacity).toNat = 0 ∨
        ∃ j, (growCapacity t.capacity).toNat = 8 * 2 ^ j := by
      rcases hInv.capacity_eq with h0 | ⟨j, hj⟩
      · exact .inr ⟨0, by rw [hGrow, h0]; rfl⟩
      · refine .inr ⟨j + 1, ?_⟩
        rw [hGrow, if_neg (by have := Nat.one_le_two_pow (n := j); omega), hj, Nat.pow_succ]
        omega
    obtain ⟨hInv', hTomb, hCap, hCount, hHolds⟩ :=
      hInv.rehash hc (by rw [hGrow]; split <;> omega)
    refine ⟨hInv', by rw [hCap, hGrow]; split <;> omega, ?_, hHolds⟩
    rw [hTomb, hCap, hCount, hGrow]
    split <;> omega
  · -- No growing: the load test itself leaves room.
    refine ⟨hInv, by omega, by omega, fun _ _ => Iff.rfl⟩

end Room

end Table

end StackScript
