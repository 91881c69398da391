import StackScript.Proofs.Bytecode.Records
import StackScript.Proofs.Heap.Calls
import StackScript.Proofs.Machine.Globals

/-! # Loading chunk files

Loading checks a record (its magic, its version, one line per code byte, at most 256 constants)
and adds its constants to a chunk, interning strings through the heap. A constant record stands
for a value by its kind (`ConstantRecord.content?`); the loaded constants have those contents and
are canonical in the heap loading leaves, which the old heap grows into
(`ChunkRecord.addConstants_loads`). So storing and loading round-trip: a chunk comes back with its
name, code and lines and constants of the same contents (`Chunk.load_store`), and as itself when
its constants are canonical already (`Chunk.load_store_canon`). Whatever loads has the shape a
file can hold (`Chunk.load_ok`), and a load fails only as undecodable or as malformed
(`Chunk.load_error`).
-/

namespace StackScript

set_option autoImplicit false

namespace ConstantRecord

/-- What a constant record stands for, if it stands for a value: by its kind, nil, a boolean, a
number, or the bytes of a string. -/
def content? (r : ConstantRecord) : Option Val :=
  match r.kind with
  | 0 => some .nil
  | 1 => some (.bool r.flag)
  | 2 => some (.number r.number)
  | 3 => r.text.map .str
  | _ => none

theorem content?_record {v : Value} (hv : v.Storable) : v.record.content? = some v.content := by
  match v, hv with
  | .nil, _ | .bool _, _ | .number _, _ | .obj (.str _), _ => rfl

/-- A record that stands for a value loads as a value with that content, canonical in the heap
it leaves, which the old heap grows into. -/
theorem toValue_content? {h : Heap} (hWF : h.WF) {r : ConstantRecord} {x : Val} (hr : r.content? = some x) :
    ∃ h' w, r.toValue (some h) = (some h', .ok w) ∧ h.Grows h' ∧ w.Canon h' ∧ w.content = x := by
  unfold content? at hr
  unfold toValue
  split at hr
  case h_4 hk =>
    obtain ⟨t, ht, rfl⟩ := Option.map_eq_some_iff.mp hr
    refine ⟨(h.intern t).1, .obj (.str (h.intern t).2), by simp [hk, ht], Heap.grows_intern h t, ?_, ?_⟩
    · show (h.intern t).1.lookup? (h.intern t).2.chars = some (h.intern t).2
      rw [(hWF.intern t).2.1, if_pos (Heap.intern_chars t)]
    · show Val.str (h.intern t).2.chars = .str t
      rw [Heap.intern_chars]
  case h_1 hk =>
    cases hr
    exact ⟨h, .nil, by simp [hk], Heap.Grows.refl h, trivial, rfl⟩
  case h_2 hk =>
    cases hr
    exact ⟨h, .bool r.flag, by simp [hk], Heap.Grows.refl h, trivial, rfl⟩
  case h_3 hk =>
    cases hr
    exact ⟨h, .number r.number, by simp [hk], Heap.Grows.refl h, trivial, rfl⟩
  case h_5 => cases hr

/-- A record loads only if it stands for a value. -/
theorem isSome_content?_of_toValue {r : ConstantRecord} {heap heap' : Option Heap} {w : Value}
    (h : r.toValue heap = (heap', .ok w)) : r.content?.isSome := by
  unfold toValue at h
  unfold content?
  split at h
  case h_4 hk =>
    split at h
    · cases h
    · cases h
    · simp_all
  case h_5 => cases h
  all_goals simp_all

/-- A canonical value a file can hold loads back as itself, and the heap stays as it is. -/
theorem toValue_record {h : Heap} {w : Value} (hw : w.Canon h) : w.record.toValue (some h) = (some h, .ok w) := by
  match w, hw with
  | .nil, _ | .bool _, _ | .number _, _ => rfl
  | .obj (.str s), hs =>
    show (some (h.intern s.chars).1, Except.ok (Value.obj (.str (h.intern s.chars).2))) = _
    rw [Heap.intern_of_lookup? hs]

/-- A value is one a file can hold when it is canonical and its content is what a record whose
texts are well-formed UTF-8 stands for. -/
theorem storable_of_content? {r : ConstantRecord} (hText : ∀ t ∈ r.text, Bytes.isUtf8 t = true) {h : Heap}
    {w : Value} (hw : w.Canon h) (hr : r.content? = some w.content) : w.Storable := by
  match w, hw with
  | .nil, _ | .bool _, _ | .number _, _ => trivial
  | .obj (.str s), _ =>
    unfold content? at hr
    split at hr
    case h_4 =>
      obtain ⟨t, ht, hst⟩ := Option.map_eq_some_iff.mp hr
      have hChars : t = s.chars := Val.str.inj hst
      show Bytes.isUtf8 s.chars = true
      exact hChars ▸ hText t ht
    all_goals cases hr

end ConstantRecord

/-- An element of the right list of a pointwise relation is related to one of the left. -/
theorem exists_of_forall₂_right {α β : Type} {R : α → β → Prop} :
    ∀ {l₁ : List α} {l₂ : List β}, List.Forall₂ R l₁ l₂ → ∀ b ∈ l₂, ∃ a ∈ l₁, R a b
  | _, _, .nil, _, hb => by cases hb
  | _, _, .cons hab h, b, hb => by
    rcases List.mem_cons.mp hb with rfl | hb
    · exact ⟨_, List.mem_cons_self, hab⟩
    · obtain ⟨a, ha, hR⟩ := exists_of_forall₂_right h b hb
      exact ⟨a, List.mem_cons_of_mem _ ha, hR⟩

namespace ChunkRecord

/-- Records that all stand for values load, in order, as values with their contents, each
canonical in the heap loading leaves. -/
theorem addConstants_loads : ∀ (rs : List ConstantRecord) (h : Heap) (c : Chunk) (i : Nat), h.WF →
    (∀ r ∈ rs, r.content?.isSome) →
    ∃ h' ws, addConstants (some h) c i rs = (some h', .ok { c with constants := c.constants ++ ws.toArray }) ∧
      h.Grows h' ∧ List.Forall₂ (fun r w => w.Canon h' ∧ r.content? = some w.content) rs ws
  | [], h, c, _, _, _ => ⟨h, [], by simp [addConstants], Heap.Grows.refl h, .nil⟩
  | r :: rs, h, c, i, hWF, hrs => by
    obtain ⟨x, hx⟩ := Option.isSome_iff_exists.mp (hrs r List.mem_cons_self)
    obtain ⟨h₁, w, hw, hG₁, hCanon, hContent⟩ := r.toValue_content? hWF hx
    have hWF₁ := (hG₁ hWF).1
    obtain ⟨h', ws, hAdd, hG, hRel⟩ := addConstants_loads rs h₁ (c.addConstant w).1 (i + 1) hWF₁
      (fun r' hr' => hrs r' (List.mem_cons_of_mem r hr'))
    refine ⟨h', w :: ws, ?_, hG₁.trans hG, .cons ⟨hCanon.grow hG hWF₁, hContent ▸ hx⟩ hRel⟩
    simp only [addConstants, hw]
    rw [hAdd]
    simp [Chunk.addConstant]

/-- Records load only if they all stand for values. -/
theorem isSome_content?_of_addConstants : ∀ {rs : List ConstantRecord} {heap heap' : Option Heap} {c c' : Chunk}
    {i : Nat}, addConstants heap c i rs = (heap', .ok c') → ∀ r ∈ rs, r.content?.isSome
  | [], _, _, _, _, _, _ => by simp
  | r :: rs, heap, heap', c, c', i, h => by
    unfold addConstants at h
    split at h
    · cases h
    · rename_i heap₁ w hw
      intro r' hr'
      rcases List.mem_cons.mp hr' with rfl | hr'
      · exact ConstantRecord.isSome_content?_of_toValue hw
      · exact isSome_content?_of_addConstants h r' hr'

/-- Loading fails only on a record that stands for no value, and says so as a malformed chunk. -/
theorem addConstants_error : ∀ {rs : List ConstantRecord} {heap heap' : Option Heap} {c : Chunk} {i : Nat}
    {e : LoadError}, addConstants heap c i rs = (heap', .error e) → ∃ d, e = .malformed d
  | [], _, _, _, _, _, h => by cases h
  | r :: rs, heap, heap', c, i, e, h => by
    unfold addConstants at h
    split at h
    · cases h
      exact ⟨_, rfl⟩
    · exact addConstants_error h

/-- Canonical values a file can hold load back as themselves, and the heap stays as it is. -/
theorem addConstants_records {h : Heap} : ∀ (ws : List Value) (c : Chunk) (i : Nat), (∀ w ∈ ws, w.Canon h) →
    addConstants (some h) c i (ws.map Value.record) = (some h, .ok { c with constants := c.constants ++ ws.toArray })
  | [], c, _, _ => by simp [addConstants]
  | w :: ws, c, i, hws => by
    have hRest := addConstants_records ws (c.addConstant w).1 (i + 1) (fun w' hw' => hws w' (List.mem_cons_of_mem w hw'))
    simp only [List.map_cons, addConstants, ConstantRecord.toValue_record (hws w List.mem_cons_self)]
    rw [hRest]
    simp [Chunk.addConstant]

/-- A record passes the checks of loading: its magic, its version, one line per code byte and at
most 256 constants; then its constants are added to a chunk with its name, code and lines. -/
theorem toChunk_ok {r : ChunkRecord} {heap heap' : Option Heap} {c : Chunk} (h : r.toChunk heap = (heap', .ok c)) :
    r.code.length = r.lines.length ∧ r.constants.length ≤ Chunk.maxConstants ∧
      addConstants heap ⟨(Bytes.toString? r.name).getD "", r.code.toArray, r.lines.toArray, #[]⟩ 0 r.constants =
        (heap', .ok c) := by
  unfold toChunk at h
  dsimp only at h
  split_ifs at h with hMagic hVersion hLength hCount
  · cases h
  · cases h
  · cases h
  · cases h
  · exact ⟨by simpa using hLength, Nat.le_of_not_lt hCount, h⟩

theorem toChunk_error {r : ChunkRecord} {heap heap' : Option Heap} {e : LoadError}
    (h : r.toChunk heap = (heap', .error e)) : ∃ d, e = .malformed d := by
  unfold toChunk at h
  dsimp only at h
  split_ifs at h
  all_goals first | (cases h; exact ⟨_, rfl⟩) | exact addConstants_error h

end ChunkRecord

/-- The record of a chunk of the shape a file can hold passes the checks of loading. -/
theorem Chunk.toChunk_record {c : Chunk} (hc : c.Storable) (heap : Option Heap) :
    c.record.toChunk heap = ChunkRecord.addConstants heap ⟨c.name, c.code, c.lines, #[]⟩ 0
      (c.constants.toList.map Value.record) := by
  have hCount : ¬ c.constants.size > Chunk.maxConstants := Nat.not_lt_of_le hc.constants_le
  simp [ChunkRecord.toChunk, Chunk.record, hc.lines_eq, hCount]

/-- `c'` is `c` as loading gives it back into the heap `h`: the same name, code and lines, and
constants of the same contents, each canonical in `h`. -/
structure Chunk.Reloaded (h : Heap) (c c' : Chunk) : Prop where
  name : c'.name = c.name
  code : c'.code = c.code
  lines : c'.lines = c.lines
  constants : List.Forall₂ (fun v w => w.Canon h ∧ w.content = v.content) c.constants.toList c'.constants.toList

/-- A chunk of the shape and sizes a file can hold is stored, and loading the file into a sound
heap gives it back there, in a heap the old one grows into. -/
theorem Chunk.load_store {c : Chunk} (hc : c.Storable) (hz : c.Sized) {h : Heap} (hWF : h.WF) :
    ∃ data h' c', c.store = .ok data ∧ Chunk.load data (some h) = (some h', .ok c') ∧ h.Grows h' ∧
      c.Reloaded h' c' := by
  obtain ⟨data, hStore, hRead⟩ := Chunk.read_store hc hz
  have hSome : ∀ r ∈ c.constants.toList.map Value.record, r.content?.isSome := by
    intro r hr
    obtain ⟨v, hv, rfl⟩ := List.mem_map.mp hr
    simp [ConstantRecord.content?_record (hc.constants v hv)]
  obtain ⟨h', ws, hAdd, hG, hRel⟩ := ChunkRecord.addConstants_loads _ h _ 0 hWF hSome
  refine ⟨data, h', ⟨c.name, c.code, c.lines, #[] ++ ws.toArray⟩, hStore, ?_, hG, rfl, rfl, rfl, ?_⟩
  · simp only [Chunk.load, hRead]
    rw [Chunk.toChunk_record hc, hAdd]
  · simp only [List.forall₂_map_left_iff] at hRel
    simp only [Array.toList_append, List.nil_append]
    refine ((List.forall₂_and_left _ _).mpr ⟨hc.constants, hRel⟩).imp fun v w ⟨hv, hCanon, hContent⟩ => ⟨hCanon, ?_⟩
    rw [ConstantRecord.content?_record hv] at hContent
    exact (Option.some.inj hContent).symm

/-- A chunk of the shape and sizes a file can hold whose constants are canonical in a heap loads
back from its file as itself, and the heap stays as it is. -/
theorem Chunk.load_store_canon {c : Chunk} (hc : c.Storable) (hz : c.Sized) {h : Heap}
    (hCanon : ∀ v ∈ c.constants.toList, v.Canon h) :
    ∃ data, c.store = .ok data ∧ Chunk.load data (some h) = (some h, .ok c) := by
  obtain ⟨data, hStore, hRead⟩ := Chunk.read_store hc hz
  refine ⟨data, hStore, ?_⟩
  simp only [Chunk.load, hRead]
  rw [Chunk.toChunk_record hc, ChunkRecord.addConstants_records _ _ 0 hCanon]
  simp

/-- What loading into a sound heap gives: a heap it grows into, and a chunk of the shape a file
can hold whose constants are canonical there. -/
theorem Chunk.load_ok {data : Bytes} {h : Heap} (hWF : h.WF) {heap' : Option Heap} {c : Chunk}
    (hl : Chunk.load data (some h) = (heap', .ok c)) :
    ∃ h', heap' = some h' ∧ h.Grows h' ∧ c.Storable ∧ ∀ v ∈ c.constants.toList, v.Canon h' := by
  unfold Chunk.load at hl
  split at hl
  · cases hl
  rename_i r hRead
  have hSound := ChunkRecord.read_sound hRead
  obtain ⟨hLength, hCount, hAdd⟩ := ChunkRecord.toChunk_ok hl
  obtain ⟨h', ws, hAdd', hG, hRel⟩ :=
    ChunkRecord.addConstants_loads r.constants h _ 0 hWF (ChunkRecord.isSome_content?_of_addConstants hAdd)
  rw [hAdd'] at hAdd
  simp only [Prod.mk.injEq, Except.ok.injEq] at hAdd
  obtain ⟨rfl, rfl⟩ := hAdd
  -- the loaded constants are `ws`, one per record
  have hMem : ∀ w ∈ ws, w.Canon h' ∧ w.Storable := by
    intro w hw
    obtain ⟨r', hr', hCanon, hContent⟩ := exists_of_forall₂_right hRel w hw
    exact ⟨hCanon, ConstantRecord.storable_of_content? (hSound.texts r' hr') hCanon hContent⟩
  refine ⟨h', rfl, hG, ⟨?_, ?_, ?_, ?_⟩, ?_⟩
  · simpa using fun w hw => (hMem w hw).2
  · simpa [← hRel.length_eq] using hCount
  · simpa using hLength
  · simpa using hSound.lines_fit
  · simpa using fun w hw => (hMem w hw).1

/-- Loading fails either because the file holds no chunk record or as a malformed chunk. -/
theorem Chunk.load_error {data : Bytes} {heap heap' : Option Heap} {e : LoadError}
    (hl : Chunk.load data heap = (heap', .error e)) :
    (∃ err, ChunkRecord.read data = .error err ∧ e = .undecodable err.message) ∨ ∃ d, e = .malformed d := by
  unfold Chunk.load at hl
  split at hl
  · rename_i err hRead
    cases hl
    exact .inl ⟨err, hRead, rfl⟩
  · exact .inr (ChunkRecord.toChunk_error hl)

end StackScript
