import StackScript.Proofs.Heap.Intern

/-! # Interning over a run of calls

The calls a heap serves are copying or taking a byte string, concatenating two strings, and
looking bytes up; `Heap.serveAll` serves them in order and answers a string for each (a look-up
may answer nothing). From a heap that was just made or freed, a run keeps the heap in step with
what was asked (`Heap.Interns`): its objects are the distinct byte strings interned so far, in
the order first asked, they are exactly the keys of the intern table, which counts them, and the
strings answered are exactly the objects.

Hence `Heap.serve_canonical`: after any run, the next answer holds the bytes asked for, it is
an earlier answer exactly when their bytes are equal, a look-up answers what an earlier call
answered for its bytes (nothing if none did) and allocates nothing, and the intern count is the
number of distinct byte strings interned, which the objects list in first-interning order.
-/

namespace StackScript

set_option autoImplicit false

open Table

namespace Heap

/-- A call on the interning interface of a heap. -/
inductive Call where
  | copyString (chars : Bytes)
  | takeString (chars : Bytes)
  | concat (a b : Str)
  | lookup (chars : Bytes)

namespace Call

/-- The bytes a call asks for. -/
def chars : Call → Bytes
  | copyString c | takeString c | lookup c => c
  | concat a b => a.chars ++ b.chars

/-- Whether a call interns its bytes: every call but a look-up. -/
def interns : Call → Bool
  | lookup _ => false
  | _ => true

end Call

/-- The bytes that calls intern, in order and with repeats. -/
def internedBy (cs : List Call) : List Bytes := (cs.filter Call.interns).map Call.chars

/-- Serves a call: the heap after it and the string it answers. -/
def serve (h : Heap) : Call → Heap × Option Str
  | .copyString c | .takeString c => ((h.intern c).1, some (h.intern c).2)
  | .concat a b => ((h.concat a b).1, some (h.concat a b).2)
  | .lookup c => (h, h.lookup? c)

/-- Serves calls in order: the heap after them and their answers. -/
def serveAll (h : Heap) : List Call → Heap × List (Option Str)
  | [] => (h, [])
  | c :: cs => (((h.serve c).1.serveAll cs).1, (h.serve c).2 :: ((h.serve c).1.serveAll cs).2)

/-- A heap in step with a run: `asked` are the bytes interned so far, in order, and `answers`
the answers given. -/
structure Interns (h : Heap) (asked : List Bytes) (answers : List (Option Str)) : Prop where
  wf : h.WF
  count_eq : h.stringCount = h.objects.size
  objects_chars : h.objects.toList.map Str.chars = asked.eraseDups
  mem_objects : ∀ s, s ∈ h.objects.toList ↔ ∃ v, Holds h.strings s v
  answered : ∀ s, some s ∈ answers ↔ s ∈ h.objects.toList

variable {h : Heap}

/-! ## One interning -/

/-- The string that interning answers has the bytes asked for. -/
theorem intern_chars (chars : Bytes) : (h.intern chars).2.chars = chars := by
  cases hl : h.lookup? chars with
  | some s =>
    rw [intern_of_lookup? hl]
    exact (WF.lookup?_sound hl).2
  | none => rw [intern_of_lookup?_none hl]

/-- No key of a sound heap has the serial the counter hands out next. -/
theorem WF.agrees_fresh (hWF : h.WF) (chars : Bytes) : h.strings.Agrees ⟨h.nextSerial, chars⟩ :=
  fun k w hHolds hSerial => absurd hSerial (Nat.ne_of_lt (hWF.serial_lt k w hHolds))

/-- Interning bytes that no string holds adds one to the intern count. -/
theorem WF.stringCount_intern (hWF : h.WF) {chars : Bytes} (hl : h.lookup? chars = none) :
    (h.intern chars).1.stringCount = h.stringCount + 1 := by
  rw [intern_of_lookup?_none hl]
  simp only [stringCount]
  obtain ⟨hInv', -, hHolds', -⟩ := hWF.inv.insert (v := .nil) (hWF.agrees_fresh chars)
  rw [hInv'.count_eq_length, hWF.inv.count_eq_length]
  have hNodup := hWF.inv.nodup_serials.of_map
  -- The entries after the insert are those before and the new string, each once.
  have hFresh : (⟨⟨h.nextSerial, chars⟩, .nil⟩ : Str × Value) ∉ h.strings.toList := fun hMem =>
    Nat.lt_irrefl _ (hWF.serial_lt _ _ (mem_toList_iff.mp hMem))
  have hPerm : (h.strings.insert ⟨h.nextSerial, chars⟩ .nil).1.toList.Perm
      (h.strings.toList ++ [(⟨h.nextSerial, chars⟩, .nil)]) := by
    refine (List.perm_ext_iff_of_nodup hInv'.nodup_serials.of_map
      (List.nodup_append.mpr ⟨hNodup, List.nodup_singleton _, ?_⟩)).mpr fun ⟨k, w⟩ => ?_
    · intro e he e' he' hEq
      rw [List.mem_singleton] at he'
      subst he' hEq
      exact hFresh he
    · rw [mem_toList_iff, hHolds', List.mem_append, mem_toList_iff, List.mem_singleton]
      constructor
      · rintro (⟨rfl, rfl⟩ | ⟨-, hOld⟩)
        · exact .inr rfl
        · exact .inl hOld
      · rintro (hOld | hNew)
        · exact .inr ⟨Nat.ne_of_lt (hWF.serial_lt k w hOld), hOld⟩
        · cases hNew
          exact .inl ⟨rfl, rfl⟩
  rw [hPerm.length_eq, List.length_append, List.length_singleton]

/-! ## Heaps in step with a run -/

theorem interns_free (h : Heap) : h.free.Interns [] [] := by
  have hNone : ∀ (s : Str) (v : Value), ¬ Holds h.free.strings s v := by
    rintro s v ⟨i, hi⟩
    simp [free, empty, Table.empty] at hi
  refine ⟨⟨inv_empty, fun s v hs => absurd hs (hNone s v), fun s _ v _ hs => absurd hs (hNone s v)⟩,
    rfl, rfl, fun s => ?_, fun s => ?_⟩
  · simp only [free, empty, List.not_mem_nil, false_iff, Array.toList_empty]
    rintro ⟨v, hv⟩
    exact hNone s v hv
  · simp [free, empty]

namespace Interns

variable {asked : List Bytes} {answers : List (Option Str)}

theorem lookup?_eq_some_iff (hI : h.Interns asked answers) {chars : Bytes} {s : Str} :
    h.lookup? chars = some s ↔ s ∈ h.objects.toList ∧ s.chars = chars := by
  rw [hI.wf.lookup?_eq_some_iff, hI.mem_objects]

/-- Two objects with the same bytes are one object. -/
theorem eq_of_chars (hI : h.Interns asked answers) {s t : Str} (hs : s ∈ h.objects.toList)
    (ht : t ∈ h.objects.toList) (hChars : s.chars = t.chars) : s = t := by
  obtain ⟨v, hv⟩ := (hI.mem_objects s).mp hs
  obtain ⟨w, hw⟩ := (hI.mem_objects t).mp ht
  exact hI.wf.chars_inj s t v w hv hw hChars

/-- The bytes asked for so far are the bytes of the objects. -/
theorem mem_asked (hI : h.Interns asked answers) {chars : Bytes} :
    chars ∈ asked ↔ ∃ s ∈ h.objects.toList, s.chars = chars := by
  rw [← List.mem_eraseDups, ← hI.objects_chars, List.mem_map]

theorem intern (hI : h.Interns asked answers) (chars : Bytes) :
    (h.intern chars).1.Interns (asked ++ [chars]) (answers ++ [some (h.intern chars).2]) := by
  cases hl : h.lookup? chars with
  | some s =>
    -- The bytes were interned before: the heap stays, and the answer is an object.
    rw [intern_of_lookup? hl]
    obtain ⟨hs, rfl⟩ := hI.lookup?_eq_some_iff.mp hl
    have hAsked : s.chars ∈ asked := hI.mem_asked.mpr ⟨s, hs, rfl⟩
    refine ⟨hI.wf, hI.count_eq, ?_, hI.mem_objects, fun t => ?_⟩
    · simp [List.eraseDups_append, hI.objects_chars, List.removeAll, hAsked]
    · rw [List.mem_append, List.mem_singleton, Option.some.injEq, hI.answered]
      constructor
      · rintro (ht | rfl)
        · exact ht
        · exact hs
      · exact .inl
  | none =>
    -- New bytes: a new object with the next serial, at the end of the objects.
    have hNew : chars ∉ asked := fun hMem => by
      obtain ⟨s, hs, hChars⟩ := hI.mem_asked.mp hMem
      rw [hI.lookup?_eq_some_iff.mpr ⟨hs, hChars⟩] at hl
      cases hl
    have hCount := hI.wf.stringCount_intern hl
    have hWF' := (hI.wf.intern chars).1
    rw [intern_of_lookup?_none hl] at hCount hWF' ⊢
    obtain ⟨-, -, hHolds', -⟩ := hI.wf.inv.insert (v := .nil) (hI.wf.agrees_fresh chars)
    refine ⟨hWF', ?_, ?_, fun t => ?_, fun t => ?_⟩
    · rw [hCount, hI.count_eq, Array.size_push]
    · simp [List.eraseDups_append, List.eraseDups_cons, hI.objects_chars, List.removeAll, hNew]
    · rw [Array.toList_push, List.mem_append, hI.mem_objects, List.mem_singleton]
      constructor
      · rintro (⟨v, hv⟩ | rfl)
        · exact ⟨v, (hHolds' t v).mpr (.inr ⟨Nat.ne_of_lt (hI.wf.serial_lt t v hv), hv⟩)⟩
        · exact ⟨.nil, (hHolds' _ _).mpr (.inl ⟨rfl, rfl⟩)⟩
      · rintro ⟨v, hv⟩
        rcases (hHolds' t v).mp hv with ⟨rfl, -⟩ | ⟨-, hOld⟩
        · exact .inr rfl
        · exact .inl ⟨v, hOld⟩
    · rw [List.mem_append, List.mem_singleton, Option.some.injEq, hI.answered, Array.toList_push,
        List.mem_append, List.mem_singleton]

/-- Serving a call keeps the heap in step, with the bytes the call interns and its answer. -/
theorem serve (hI : h.Interns asked answers) (c : Call) :
    (h.serve c).1.Interns (asked ++ internedBy [c]) (answers ++ [(h.serve c).2]) := by
  cases c with
  | copyString chars => exact hI.intern chars
  | takeString chars => exact hI.intern chars
  | concat a b => exact hI.intern (a.chars ++ b.chars)
  | lookup chars =>
    -- A look-up changes nothing and answers an object or nothing.
    refine ⟨hI.wf, hI.count_eq, by simpa [Heap.serve, internedBy, Call.interns] using hI.objects_chars,
      hI.mem_objects, fun t => ?_⟩
    rw [List.mem_append, List.mem_singleton, hI.answered]
    constructor
    · rintro (ht | ht)
      · exact ht
      · exact (hI.lookup?_eq_some_iff.mp ht.symm).1
    · exact .inl

/-- A run keeps the heap in step with everything it asked and answered. -/
theorem serveAll (hI : h.Interns asked answers) (cs : List Call) :
    (h.serveAll cs).1.Interns (asked ++ internedBy cs) (answers ++ (h.serveAll cs).2) := by
  induction cs generalizing h asked answers with
  | nil => simpa [Heap.serveAll, internedBy] using hI
  | cons c cs ih =>
    have hRest := ih (hI.serve c)
    have hAsked : internedBy (c :: cs) = internedBy [c] ++ internedBy cs := by
      simp [internedBy, List.filter_cons]
      split <;> simp
    rw [hAsked, ← List.append_assoc]
    simpa [Heap.serveAll] using hRest

end Interns

/-- The string a call answers has the bytes the call asks for. -/
theorem serve_chars (c : Call) {p : Str} (hp : (h.serve c).2 = some p) : p.chars = c.chars := by
  cases c with
  | copyString chars => cases hp; exact intern_chars chars
  | takeString chars => cases hp; exact intern_chars chars
  | concat a b => cases hp; exact intern_chars (a.chars ++ b.chars)
  | lookup chars => exact (WF.lookup?_sound hp).2

/-- **Interning is canonical.** After any run of calls from a heap just made or freed (a new
heap is `Heap.empty`, and `Heap.empty.free = Heap.empty`), the next call answers a string with
the bytes it asks for and their XXH3 hash; that string is an earlier answer exactly when their
bytes are equal; a look-up leaves the heap as it is and answers the string an earlier call
answered for its bytes, or nothing when none did; the look-up by bytes finds exactly the live key
with those bytes; and the intern count is the number of objects, which are the distinct byte
strings interned so far in the order first asked. -/
theorem serve_canonical (h₀ : Heap) (cs : List Call) (c : Call) :
    let h := (h₀.free.serveAll cs).1
    let answers := (h₀.free.serveAll cs).2
    (∀ p, (h.serve c).2 = some p → p.chars = c.chars ∧ p.hash = xxh3 p.chars) ∧
    (∀ p q, (h.serve c).2 = some p → some q ∈ answers → (p = q ↔ p.chars = q.chars)) ∧
    (∀ x, c = .lookup x → (h.serve c).1 = h ∧
      ∀ p, (h.serve c).2 = some p ↔ some p ∈ answers ∧ p.chars = x) ∧
    (∀ x p, h.lookup? x = some p ↔ (∃ v, Holds h.strings p v) ∧ p.chars = x) ∧
    (h.serve c).1.stringCount = (h.serve c).1.objects.size ∧
    (h.serve c).1.objects.size = (internedBy (cs ++ [c])).eraseDups.length ∧
    (h.serve c).1.objects.toList.map Str.chars = (internedBy (cs ++ [c])).eraseDups := by
  intro h answers
  have hI : h.Interns (internedBy cs) answers := by
    simpa using (interns_free h₀).serveAll cs
  have hI' := hI.serve c
  have hAsked : internedBy cs ++ internedBy [c] = internedBy (cs ++ [c]) := by
    simp [internedBy, List.filter_append]
  rw [hAsked] at hI'
  -- Every answer so far, and the next one, is an object of the heap after the call.
  have hAnswer : ∀ p, (h.serve c).2 = some p → p ∈ (h.serve c).1.objects.toList := fun p hp =>
    (hI'.answered p).mp (List.mem_append_right _ (List.mem_singleton.mpr hp.symm))
  have hEarlier : ∀ q, some q ∈ answers → q ∈ (h.serve c).1.objects.toList := fun q hq =>
    (hI'.answered q).mp (List.mem_append_left _ hq)
  refine ⟨fun p hp => ⟨serve_chars c hp, rfl⟩, fun p q hp hq => ?_, fun x hx => ?_,
    fun x p => hI.wf.lookup?_eq_some_iff, hI'.count_eq, ?_, hI'.objects_chars⟩
  · constructor
    · rintro rfl
      rfl
    · exact hI'.eq_of_chars (hAnswer p hp) (hEarlier q hq)
  · subst hx
    refine ⟨rfl, fun p => ?_⟩
    show h.lookup? x = some p ↔ _
    rw [hI.lookup?_eq_some_iff, hI.answered]
  · rw [← Array.length_toList, ← List.length_map Str.chars, hI'.objects_chars]

end Heap

end StackScript
