import StackScript.Proofs.Cbor.Floats
import StackScript.Proofs.Text.Utf8

/-! # Chunk records in CBOR

A chunk is stored as a CBOR map of numbered fields: the magic text, the version, the name (left
out when empty), the code bytes and their lines (null when empty), and the constants (left out
when there are none), each a map of its kind, flag, number and text. This module follows such a
record through the writer and the reader. Every item written is plain, so the CBOR reader gives
it back (`Item.read_encode`), and each field reader takes back what its writer put
(`Codec.text_ofText`, `Codec.int_int`, `Codec.setChunk_constants`): a chunk of the shape and
sizes a file can hold reads back as its record (`Chunk.read_store`). The other way, whatever the
reader accepts is sound: its texts are well-formed UTF-8 and its lines fit a signed 64-bit
integer (`ChunkRecord.read_sound`).
-/

namespace StackScript

open Cbor

set_option autoImplicit false

namespace Codec

variable {α : Type}

-- Every lemma of this section unfolds the `Except` monad and the readers of records and entries:
-- their equations are made once, here, and not by each proof at once.
attribute [local simp] Bind.bind Pure.pure Except.bind Except.pure Except.mapError content fieldKey
  readEntries setConstant setChunk bytes cells ints constants

theorem text_ofText {b : Bytes} (hb : Bytes.isUtf8 b = true) : text (Item.ofText b) = .ok (some b) := by
  simp [text, Item.ofText, hb]

theorem optionalText_ofText {b : Bytes} (hb : Bytes.isUtf8 b = true) :
    optionalText (Item.ofText b) = .ok (some b) := by
  have hText := text_ofText hb
  simp only [Item.ofText] at hText ⊢
  simp [optionalText, hText]

theorem byte_unsigned (target : String) {n : Nat} (hn : n < 256) :
    byte target (.unsigned n) = .ok (some n) := by
  simp [byte, hn]

theorem flag_bool (b : Bool) : flag (Item.bool b) = .ok (some b) := by
  cases b <;> simp [flag, Item.bool]

theorem readEntries_unsigned {owner : String} {set : α → Nat → Item → Except ReadError α} {r r' : α}
    {found : List Nat} {k : Nat} {v : Item} (es : List (Item × Item)) (hk : k ∉ found)
    (hSet : set r k v = .ok r') :
    readEntries owner set r found ((.unsigned k, v) :: es) = readEntries owner set r' (k :: found) es := by
  simp [hk, hSet]

theorem record_map {owner : String} {set : α → Nat → Item → Except ReadError α} (es : List (Item × Item))
    (r : α) : record owner set (.map es) r = readEntries owner set r [] es := by
  simp [record]

theorem setConstant_kind (r : ConstantRecord) {n : Nat} (hn : n < 256) :
    setConstant r 1 (.unsigned n) = .ok { r with kind := n } := by
  simp [byte_unsigned _ hn]

theorem setConstant_flag (r : ConstantRecord) (b : Bool) :
    setConstant r 2 (Item.bool b) = .ok { r with flag := b } := by
  simp [flag_bool]

theorem setConstant_number (r : ConstantRecord) (x : Float) :
    setConstant r 3 (Item.ofFloat x) = .ok { r with number := x } := by
  simp [number_ofFloat]

theorem setConstant_text (r : ConstantRecord) {b : Bytes} (hb : Bytes.isUtf8 b = true) :
    setConstant r 4 (Item.ofText b) = .ok { r with text := some b } := by
  simp [optionalText_ofText hb]

theorem setChunk_magic (r : ChunkRecord) {b : Bytes} (hb : Bytes.isUtf8 b = true) :
    setChunk r 1 (Item.ofText b) = .ok { r with magic := b } := by
  simp [text_ofText hb]

theorem setChunk_version (r : ChunkRecord) {n : Nat} (hn : n < 256) :
    setChunk r 2 (.unsigned n) = .ok { r with version := n } := by
  simp [byte_unsigned _ hn]

theorem setChunk_name (r : ChunkRecord) {b : Bytes} (hb : Bytes.isUtf8 b = true) :
    setChunk r 3 (Item.ofText b) = .ok { r with name := b } := by
  simp [text_ofText hb]

theorem setChunk_code (r : ChunkRecord) (a : Array UInt8) :
    setChunk r 4 (if a.isEmpty then .null else .bytes a.toList) = .ok { r with code := a.toList } := by
  by_cases h : a.isEmpty
  · have ha : a.toList = [] := by simpa using h
    simp [h, ha, Item.null]
  · simp [h]

theorem int_int {n : Int} (hLo : -2 ^ 63 ≤ n) (hHi : n < 2 ^ 63) : int (Item.int n) = .ok (some n) := by
  unfold Item.int
  split
  · have hSmall : (-1 - n).toNat < Nat.pow 2 63 := by simp only [Nat.pow_eq]; omega
    simp [int, hSmall]
    omega
  · have hSmall : n.toNat < Nat.pow 2 63 := by simp only [Nat.pow_eq]; omega
    simp [int, hSmall]
    omega

theorem cells_of_forall₂ {zero : α} {f : Item → Except ReadError (Option α)} :
    ∀ {xs : List Item} {as : List α}, List.Forall₂ (fun x a => f x = .ok (some a)) xs as →
      cells zero f xs = .ok as
  | [], [], .nil => rfl
  | _ :: _, _ :: _, .cons hx hxs => by
    simp [hx, cells_of_forall₂ hxs]

theorem setChunk_lines (r : ChunkRecord) (a : Array Int) (h : ∀ l ∈ a.toList, -2 ^ 63 ≤ l ∧ l < 2 ^ 63) :
    setChunk r 5 (if a.isEmpty then .null else .array (a.toList.map Item.int)) =
      .ok { r with lines := a.toList } := by
  by_cases hEmpty : a.isEmpty
  · have ha : a.toList = [] := by simpa using hEmpty
    simp [hEmpty, ha, Item.null]
  · have hCells : cells 0 int (a.toList.map Item.int) = .ok a.toList :=
      cells_of_forall₂ (List.forall₂_map_left_iff.mpr (List.forall₂_same.mpr fun l hl => int_int (h l hl).1 (h l hl).2))
    simp [hEmpty, hCells]

theorem setChunk_constants (r : ChunkRecord) {xs : List Item} {recs : List ConstantRecord}
    (h : List.Forall₂ (fun x a => record "bytecode.wireValue" setConstant x .zero = .ok a) xs recs) :
    setChunk r 6 (.array xs) = .ok { r with constants := recs } := by
  have hCells : cells .zero (fun x => do pure (some (← record "bytecode.wireValue" setConstant x .zero))) xs =
      .ok recs :=
    cells_of_forall₂ (h.imp fun x a hx => by simp [hx])
  simp only [bind, Except.bind, pure, Except.pure] at hCells
  simp [hCells]

end Codec

/-- A value a chunk file can hold: nil, a boolean, a number, or a string of well-formed UTF-8. -/
def Value.Storable : Value → Prop
  | .obj (.str s) => Bytes.isUtf8 s.chars = true
  | .obj (.foreign _) => False
  | _ => True

/-- The record a chunk file holds for a constant. -/
def Value.record : Value → ConstantRecord
  | .nil => ⟨0, false, 0, none⟩
  | .bool b => ⟨1, b, 0, none⟩
  | .number x => ⟨2, false, x, none⟩
  | .obj (.str s) => ⟨3, false, 0, some s.chars⟩
  | .obj (.foreign _) => .zero

/-- A record map is plain when its field numbers and values are. -/
theorem plain_record {d : Nat} (hd : d < maxDepth) (es : List (Nat × Item)) (hn : es.length ≤ maxEntries)
    (hk : ∀ e ∈ es, e.1 < 2 ^ 64) (hv : ∀ e ∈ es, Plain (d + 1) e.2) :
    Plain d (.map (es.map fun e => (Item.unsigned e.1, e.2))) := by
  refine .map hd (by simpa using hn) ?_ ?_
  · intro e he
    obtain ⟨e', he', rfl⟩ := List.mem_map.mp he
    exact .unsigned (hk e' he')
  · intro e he
    obtain ⟨e', he', rfl⟩ := List.mem_map.mp he
    exact hv e' he'

/-- The item written for a constant a file can hold is plain, and its fields read as the
constant's record. -/
theorem constantItem_reads {v : Value} (hv : v.Storable) (hLen : ∀ s : Str, v = .obj (.str s) → s.chars.length < 2 ^ 63)
    {d : Nat} (hd : d < maxDepth) :
    ∃ x, Chunk.constantItem v = .ok x ∧ Plain d x ∧
      Codec.record "bytecode.wireValue" Codec.setConstant x .zero = .ok v.record := by
  match v, hv with
  | .nil, _ =>
    refine ⟨_, rfl, plain_record hd [(1, .unsigned 0), (3, .ofFloat 0)] (by decide) (by simp)
      (by simp [Plain.unsigned, plain_ofFloat]), ?_⟩
    rw [Codec.record_map, Codec.readEntries_unsigned _ (by simp) (Codec.setConstant_kind _ (by decide)),
      Codec.readEntries_unsigned _ (by simp) (Codec.setConstant_number _ _)]
    rfl
  | .bool b, _ =>
    cases b
    · refine ⟨_, rfl, plain_record hd [(1, .unsigned 1), (3, .ofFloat 0)] (by decide) (by simp)
        (by simp [Plain.unsigned, plain_ofFloat]), ?_⟩
      simp only [Bool.false_eq_true, ↓reduceIte, List.cons_append, List.nil_append, List.append_nil]
      rw [Codec.record_map, Codec.readEntries_unsigned _ (by simp) (Codec.setConstant_kind _ (by decide)),
        Codec.readEntries_unsigned _ (by simp) (Codec.setConstant_number _ _)]
      rfl
    · refine ⟨_, rfl, plain_record hd [(1, .unsigned 1), (2, Item.bool true), (3, .ofFloat 0)] (by decide)
        (by simp) (by simp [Plain.unsigned, Item.bool, Plain.simple, plain_ofFloat]), ?_⟩
      simp only [↓reduceIte, List.cons_append, List.nil_append]
      rw [Codec.record_map, Codec.readEntries_unsigned _ (by simp) (Codec.setConstant_kind _ (by decide)),
        Codec.readEntries_unsigned _ (by simp) (Codec.setConstant_flag _ _),
        Codec.readEntries_unsigned _ (by simp) (Codec.setConstant_number _ _)]
      rfl
  | .number x, _ =>
    refine ⟨_, rfl, plain_record hd [(1, .unsigned 2), (3, .ofFloat x)] (by simp [maxEntries]) (by simp)
      (by simp [Plain.unsigned, plain_ofFloat]), ?_⟩
    rw [Codec.record_map, Codec.readEntries_unsigned _ (by simp) (Codec.setConstant_kind _ (by decide)),
      Codec.readEntries_unsigned _ (by simp) (Codec.setConstant_number _ _)]
    rfl
  | .obj (.str s), hUtf8 =>
    refine ⟨_, rfl, plain_record hd [(1, .unsigned 3), (3, .ofFloat 0), (4, .ofText s.chars)] (by simp [maxEntries])
      (by simp) (by simp [Plain.unsigned, plain_ofFloat, Item.ofText, Plain.text (hLen s rfl)]), ?_⟩
    rw [Codec.record_map, Codec.readEntries_unsigned _ (by simp) (Codec.setConstant_kind _ (by decide)),
      Codec.readEntries_unsigned _ (by simp) (Codec.setConstant_number _ _),
      Codec.readEntries_unsigned _ (by simp) (Codec.setConstant_text _ hUtf8)]
    rfl

/-- The items written for constants a file can hold: one plain item each, each reading as the
constant's record. -/
theorem constantItems_reads {d : Nat} (hd : d < maxDepth) : ∀ (i : Nat) (vs : List Value), (∀ v ∈ vs, v.Storable) →
    (∀ s : Str, Value.obj (.str s) ∈ vs → s.chars.length < 2 ^ 63) → ∃ xs, Chunk.constantItems i vs = .ok xs ∧ xs.length = vs.length ∧ (∀ x ∈ xs, Plain d x) ∧
      List.Forall₂ (fun x a => Codec.record "bytecode.wireValue" Codec.setConstant x .zero = .ok a) xs
        (vs.map Value.record)
  | _, [], _, _ => ⟨[], rfl, rfl, by simp, .nil⟩
  | i, v :: vs, hvs, hLens => by
    obtain ⟨x, hx, hPlain, hRead⟩ :=
      constantItem_reads (hvs v List.mem_cons_self) (fun s hs => hLens s (hs ▸ List.mem_cons_self)) hd
    obtain ⟨xs, hxs, hLen, hPlains, hReads⟩ := constantItems_reads hd (i + 1) vs
      (fun w hw => hvs w (List.mem_cons_of_mem v hw)) (fun s hs => hLens s (List.mem_cons_of_mem v hs))
    refine ⟨x :: xs, ?_, by simp [hLen], ?_, .cons hRead hReads⟩
    · simp [Chunk.constantItems, hx, hxs, bind, Except.bind, pure, Except.pure]
    · intro y hy
      rcases List.mem_cons.mp hy with rfl | hy
      · exact hPlain
      · exact hPlains y hy

/-- The shape a chunk file can hold: constants it can hold, at most 256 of them, one line per
code byte, and lines that fit a signed 64-bit integer. Every chunk that loads has it. -/
structure Chunk.Storable (c : Chunk) : Prop where
  constants : ∀ v ∈ c.constants.toList, v.Storable
  constants_le : c.constants.size ≤ Chunk.maxConstants
  lines_eq : c.code.size = c.lines.size
  lines_fit : ∀ l ∈ c.lines.toList, -2 ^ 63 ≤ l ∧ l < 2 ^ 63

/-- The sizes a chunk file can carry: no more code bytes than a CBOR array may have entries (the
lines are written as one), and a name and strings shorter than `2 ^ 63` bytes. -/
structure Chunk.Sized (c : Chunk) : Prop where
  code_le : c.code.size ≤ maxEntries
  name_lt : (Bytes.ofString c.name).length < 2 ^ 63
  strings_lt : ∀ s : Str, Value.obj (.str s) ∈ c.constants.toList → s.chars.length < 2 ^ 63

/-- The record a chunk file holds for a chunk. -/
def Chunk.record (c : Chunk) : ChunkRecord :=
  ⟨Bytes.ofString Codec.magic, Codec.version, Bytes.ofString c.name, c.code.toList, c.lines.toList,
    c.constants.toList.map Value.record⟩

theorem plain_int (d : Nat) {n : Int} (hLo : -2 ^ 63 ≤ n) (hHi : n < 2 ^ 63) : Plain d (Item.int n) := by
  unfold Item.int
  split
  · exact .negative (by omega)
  · exact .unsigned (by omega)

/-- The item a chunk of the shape and sizes a file can hold is written as reads back. -/
theorem Chunk.plain_toItem {c : Chunk} (hc : c.Storable) (hz : c.Sized) {item : Item} (h : c.toItem = .ok item) :
    Plain 0 item := by
  obtain ⟨xs, hxs, hLen, hPlain, -⟩ :=
    constantItems_reads (d := 2) (by decide) 0 c.constants.toList hc.constants hz.strings_lt
  unfold Chunk.toItem at h
  rw [hxs] at h
  cases h
  have hMax : maxEntries < 2 ^ 63 := by decide
  have hCode : Plain 1 (if c.code.isEmpty then Item.null else .bytes c.code.toList) := by
    split
    · exact .simple (by decide)
    · exact .bytes (by simpa using lt_of_le_of_lt hz.code_le hMax)
  have hLines : Plain 1 (if c.lines.isEmpty then Item.null else .array (c.lines.toList.map Item.int)) := by
    split
    · exact .simple (by decide)
    · refine .array (by decide) (by simpa [← hc.lines_eq] using hz.code_le) ?_
      intro x hx
      obtain ⟨l, hl, rfl⟩ := List.mem_map.mp hx
      exact plain_int 2 (hc.lines_fit l hl).1 (hc.lines_fit l hl).2
  have hConstants : Plain 1 (.array xs) :=
    .array (by decide) (by simpa [hLen] using hc.constants_le.trans (by decide)) hPlain
  have hMagic : Plain 1 (Item.ofText (Bytes.ofString Codec.magic)) := .text (by decide +kernel)
  have hVersion : Plain 1 (Item.unsigned Codec.version) := .unsigned (by decide)
  have hName : Plain 1 (Item.ofText (Bytes.ofString c.name)) := .text hz.name_lt
  generalize (if c.code.isEmpty then Item.null else .bytes c.code.toList) = code at hCode ⊢
  generalize (if c.lines.isEmpty then Item.null else .array (c.lines.toList.map Item.int)) = lines at hLines ⊢
  split_ifs <;> refine .map (by decide) (by simp [maxEntries]) ?_ ?_ <;>
    simp [Plain.unsigned, hCode, hLines, hConstants, hMagic, hVersion, hName]

/-- The code, the lines and the constants come after the name, whether it is written or not:
reading their entries sets the three fields of the record read so far. -/
theorem Chunk.readEntries_body {c : Chunk} (hc : c.Storable) {xs : List Item}
    (hReads : List.Forall₂ (fun x a => Codec.record "bytecode.wireValue" Codec.setConstant x .zero = .ok a) xs
      (c.constants.toList.map Value.record))
    (r : ChunkRecord) (found : List Nat) (hFound : ∀ k ∈ found, k < 4) (hNone : r.constants = []) :
    Codec.readEntries "bytecode.wireChunk" Codec.setChunk r found
      ((Item.unsigned 4, if c.code.isEmpty then Item.null else Item.bytes c.code.toList) ::
        (Item.unsigned 5, if c.lines.isEmpty then Item.null else Item.array (c.lines.toList.map Item.int)) ::
          if xs.isEmpty then [] else [(Item.unsigned 6, Item.array xs)]) =
      .ok { r with
        code := c.code.toList, lines := c.lines.toList, constants := c.constants.toList.map Value.record } := by
  have hOut : ∀ k, 4 ≤ k → k ∉ found := fun k hk h => absurd (hFound k h) (by omega)
  rw [Codec.readEntries_unsigned _ (hOut 4 le_rfl) (Codec.setChunk_code _ _),
    Codec.readEntries_unsigned _ (by simpa using hOut 5 (by decide)) (Codec.setChunk_lines _ _ hc.lines_fit)]
  by_cases hEmpty : xs.isEmpty
  · have hNil : xs = [] := List.isEmpty_iff.mp hEmpty
    subst hNil
    rw [List.forall₂_nil_left_iff.mp hReads, if_pos hEmpty]
    simp [Codec.readEntries, hNone, pure, Except.pure]
  · rw [if_neg hEmpty, Codec.readEntries_unsigned _ (by simpa using hOut 6 (by decide))
      (Codec.setChunk_constants _ hReads)]
    rfl

/-- A chunk of the shape and sizes a file can hold is stored, and the file reads as the chunk's record. -/
theorem Chunk.read_store {c : Chunk} (hc : c.Storable) (hz : c.Sized) :
    ∃ data, c.store = .ok data ∧ ChunkRecord.read data = .ok c.record := by
  obtain ⟨xs, hxs, -, -, hReads⟩ :=
    constantItems_reads (d := 2) (by decide) 0 c.constants.toList hc.constants hz.strings_lt
  obtain ⟨item, hItem⟩ : ∃ item, c.toItem = .ok item := ⟨_, by unfold Chunk.toItem; rw [hxs]; rfl⟩
  refine ⟨item.encode, by simp [Chunk.store, hItem, bind, Except.bind, pure, Except.pure], ?_⟩
  unfold ChunkRecord.read
  rw [Item.read_encode (Chunk.plain_toItem hc hz hItem)]
  unfold Chunk.toItem at hItem
  rw [hxs] at hItem
  cases hItem
  simp only [Except.mapError, bind, Except.bind, Codec.record_map, List.append_assoc, List.cons_append,
    List.nil_append]
  rw [Codec.readEntries_unsigned _ (by simp) (Codec.setChunk_magic _ (Bytes.isUtf8_ofString _)),
    Codec.readEntries_unsigned _ (by simp) (Codec.setChunk_version _ (by decide))]
  by_cases hName : c.name.isEmpty
  · rw [if_pos hName, List.nil_append, Chunk.readEntries_body hc hReads _ [2, 1] (by simp) rfl]
    have hEmptyName : c.name = "" := String.isEmpty_iff.mp hName
    simp [Chunk.record, hEmptyName, ChunkRecord.zero, Bytes.ofString]
  · rw [if_neg hName, List.singleton_append,
      Codec.readEntries_unsigned _ (by simp) (Codec.setChunk_name _ (Bytes.isUtf8_ofString _)),
      Chunk.readEntries_body hc hReads _ [3, 2, 1] (by simp) rfl]
    rfl

/-! ## What reading guarantees -/

namespace Codec

/-- What a field can meet: a text of well-formed UTF-8, a negative integer down to `-2 ^ 63`. -/
def Content.Sound : Content → Prop
  | .text b => Bytes.isUtf8 b = true
  | .negative n => n < 2 ^ 63
  | _ => True

/-- Whatever a field meets is sound: texts are checked, and so are negative integers. -/
theorem content_sound {target : String} {sequence : Bool} (i : Item) {k : String} {x : Content}
    (h : content target sequence i = .ok (k, x)) : x.Sound := by
  fun_induction content target sequence i generalizing k x with
  | case2 n hn =>
    cases h
    simpa [Content.Sound] using hn
  | case5 cs hAll =>
    cases h
    exact Bytes.isUtf8_flatten (by simpa using hAll)
  | case14 n c _ _ _ _ hn =>
    cases h
    simpa [Content.Sound] using hn
  | case16 n c _ _ _ ih => exact ih h
  -- every other branch fails or meets neither a text nor a negative integer
  | _ => cases h <;> simp [Content.Sound]

variable {α : Type}

theorem text_utf8 {i : Item} {b : Bytes} (h : text i = .ok (some b)) : Bytes.isUtf8 b = true := by
  simp only [text, bind, Except.bind] at h
  split at h
  · cases h
  · rename_i r hr
    split at h
    · cases h
      exact content_sound i hr
    all_goals cases h

theorem optionalText_utf8 {i : Item} {b : Bytes} (h : optionalText i = .ok (some b)) :
    Bytes.isUtf8 b = true := by
  unfold optionalText at h
  split at h
  · cases h
  · cases h
  · cases hText : text i with
    | error e => simp [hText, bind, Except.bind] at h
    | ok o =>
      simp only [hText, bind, Except.bind, pure, Except.pure, Except.ok.injEq, Option.some.injEq] at h
      subst h
      cases o with
      | none => rfl
      | some t => exact text_utf8 hText

theorem int_fits {i : Item} {n : Int} (h : int i = .ok (some n)) : -2 ^ 63 ≤ n ∧ n < 2 ^ 63 := by
  simp only [int, bind, Except.bind] at h
  split at h
  · cases h
  · rename_i r hr
    split at h
    · split_ifs at h with hn
      cases h
      simp only [Nat.pow_eq] at hn
      omega
    · cases h
      have hn : _ < 2 ^ 63 := content_sound i hr
      omega
    all_goals cases h

/-- The cells read from an array all have a property that every read cell and the default have. -/
theorem cells_forall {zero : α} {f : Item → Except ReadError (Option α)} (P : α → Prop) (hZero : P zero)
    (hf : ∀ x a, f x = .ok (some a) → P a) : ∀ {xs : List Item} {as : List α}, cells zero f xs = .ok as → ∀ a ∈ as, P a
  | [], _, h => by
    cases h
    simp
  | x :: xs, as, h => by
    simp only [cells, bind, Except.bind] at h
    cases hx : f x with
    | error e => simp [hx] at h
    | ok o =>
      cases hxs : cells zero f xs with
      | error e => simp [hx, hxs] at h
      | ok cs =>
        simp only [hx, hxs, pure, Except.pure, Except.ok.injEq] at h
        subst h
        intro a ha
        rcases List.mem_cons.mp ha with rfl | ha
        · cases o with
          | none => exact hZero
          | some a => exact hf x a hx
        · exact cells_forall P hZero hf hxs a ha

theorem ints_fits {i : Item} {ls : List Int} (h : ints i = .ok ls) : ∀ l ∈ ls, -2 ^ 63 ≤ l ∧ l < 2 ^ 63 := by
  simp only [ints, bind, Except.bind] at h
  split at h
  · cases h
  · split at h
    · exact cells_forall (fun l => -2 ^ 63 ≤ l ∧ l < 2 ^ 63) (by decide) (fun _ _ => int_fits) h
    · cases h
      simp
    · cases h

theorem mapError_ok {ε ε' β : Type} {e : Except ε β} {f : ε → ε'} {b : β} (h : e.mapError f = .ok b) :
    e = .ok b := by
  cases e <;> simp_all [Except.mapError]

/-- Reading map entries keeps every property that each field it sets keeps. -/
theorem readEntries_keeps {owner : String} {set : α → Nat → Item → Except ReadError α} (P : α → Prop)
    (hSet : ∀ r k v r', set r k v = .ok r' → P r → P r') :
    ∀ {es : List (Item × Item)} {r r' : α} {found : List Nat}, readEntries owner set r found es = .ok r' → P r → P r'
  | [], _, _, _, h, hr => by
    cases h
    exact hr
  | (k, v) :: es, r, r', found, h, hr => by
    simp only [readEntries, bind, Except.bind] at h
    split at h
    · cases h
    · split at h
      · split at h
        · exact readEntries_keeps P hSet h hr
        · split at h
          · cases h
          · rename_i r₁ hr₁
            exact readEntries_keeps P hSet h (hSet _ _ _ _ (mapError_ok hr₁) hr)
      · exact readEntries_keeps P hSet h hr

theorem record_keeps {owner : String} {set : α → Nat → Item → Except ReadError α} (P : α → Prop)
    (hSet : ∀ r k v r', set r k v = .ok r' → P r → P r') {i : Item} {r r' : α}
    (h : record owner set i r = .ok r') (hr : P r) : P r' := by
  simp only [record, bind, Except.bind] at h
  split at h
  · cases h
  · split at h
    · exact readEntries_keeps P hSet h hr
    · cases h
      exact hr
    all_goals cases h

theorem setConstant_utf8 {r r' : ConstantRecord} {k : Nat} {v : Item} (h : setConstant r k v = .ok r')
    (hr : ∀ t ∈ r.text, Bytes.isUtf8 t = true) : ∀ t ∈ r'.text, Bytes.isUtf8 t = true := by
  unfold setConstant at h
  split at h
  case h_4 =>
    cases hText : optionalText v with
    | error e => simp [hText, bind, Except.bind] at h
    | ok o =>
      simp only [hText, bind, Except.bind, pure, Except.pure, Except.ok.injEq] at h
      subst h
      intro t ht
      have ho : o = some t := ht
      exact optionalText_utf8 (ho ▸ hText)
  -- the other fields leave the text as it was
  all_goals
    first
    | (cases h; exact hr)
    | (simp only [bind, Except.bind] at h; split at h <;> cases h; exact hr)

theorem constants_utf8 {i : Item} {rs : List ConstantRecord} (h : constants i = .ok rs) :
    ∀ r ∈ rs, ∀ t ∈ r.text, Bytes.isUtf8 t = true := by
  simp only [constants, bind, Except.bind] at h
  split at h
  · cases h
  · split at h
    · refine cells_forall (fun r => ∀ t ∈ r.text, Bytes.isUtf8 t = true) (by simp [ConstantRecord.zero])
        (fun x a hx => ?_) h
      split at hx
      · cases hx
      · rename_i a' ha'
        cases hx
        exact record_keeps (fun r => ∀ t ∈ r.text, Bytes.isUtf8 t = true) (fun _ _ _ _ => setConstant_utf8) ha'
          (by simp [ConstantRecord.zero])
    · cases h
      simp
    · cases h

end Codec

/-- What every chunk record read from a file has: lines that fit a signed 64-bit integer and
constants whose texts are well-formed UTF-8. -/
structure ChunkRecord.Sound (r : ChunkRecord) : Prop where
  lines_fit : ∀ l ∈ r.lines, -2 ^ 63 ≤ l ∧ l < 2 ^ 63
  texts : ∀ k ∈ r.constants, ∀ t ∈ k.text, Bytes.isUtf8 t = true

theorem Codec.setChunk_sound {r r' : ChunkRecord} {k : Nat} {v : Item} (h : Codec.setChunk r k v = .ok r')
    (hr : r.Sound) : r'.Sound := by
  unfold Codec.setChunk at h
  split at h
  case h_5 =>
    cases hLines : Codec.ints v with
    | error e => simp [hLines, bind, Except.bind] at h
    | ok ls =>
      simp only [hLines, bind, Except.bind, pure, Except.pure, Except.ok.injEq] at h
      subst h
      exact ⟨Codec.ints_fits hLines, hr.texts⟩
  case h_6 =>
    cases hConstants : Codec.constants v with
    | error e => simp [hConstants, bind, Except.bind] at h
    | ok rs =>
      simp only [hConstants, bind, Except.bind, pure, Except.pure, Except.ok.injEq] at h
      subst h
      exact ⟨hr.lines_fit, Codec.constants_utf8 hConstants⟩
  -- the other fields leave the lines and the constants as they were
  all_goals
    first
    | (cases h; exact hr)
    | (simp only [bind, Except.bind] at h; split at h <;> cases h; exact ⟨hr.lines_fit, hr.texts⟩)

/-- Every record read from a file is sound. -/
theorem ChunkRecord.read_sound {data : Bytes} {r : ChunkRecord} (h : ChunkRecord.read data = .ok r) : r.Sound := by
  simp only [ChunkRecord.read, bind, Except.bind] at h
  split at h
  · cases h
  · exact Codec.record_keeps ChunkRecord.Sound (fun _ _ _ _ => Codec.setChunk_sound) h
      ⟨by simp [ChunkRecord.zero], by simp [ChunkRecord.zero]⟩

end StackScript

