import Mathlib
import StackScript.Cbor.Read

/-! # Reading back what is written

An item read from the bytes written for it is the item itself, whenever the writer's form is one
the reader takes: integers below `2 ^ 64`, byte and text strings shorter than `2 ^ 63` bytes,
text in a single chunk, arrays and maps of at most `maxEntries` entries nested less than
`maxDepth` deep, the simple values that are not floats and have a form of their own, floats
whose bits fit their width, and no tags (`Plain`).

The proof reads one head at a time (`Head.read_head`), then takes one step of `readItem` for
each major type; arrays and maps read their entries by `readCount`, whose fuel falls by one
an entry, so twice the written length is enough fuel for every item.
-/

namespace StackScript

namespace Format

theorem rescale_lt {m : Nat} {q j : Int} {k n : Nat} (hk : Format.rescale m q j = some k)
    (hj : q + (Nat.log2 m : Int) ≤ j + n) : k < 2 ^ (n + 1) := by
  have hm : m < 2 ^ (m.log2 + 1) := Nat.lt_log2_self
  unfold Format.rescale at hk
  split_ifs at hk with hLe hDvd
  · -- the mantissa is scaled up by `2 ^ (q - j)`
    obtain rfl := Option.some.inj hk
    have hPow : m.log2 + 1 + (q - j).toNat ≤ n + 1 := by omega
    calc m * Nat.pow 2 (q - j).toNat < 2 ^ (m.log2 + 1) * 2 ^ (q - j).toNat :=
          Nat.mul_lt_mul_of_pos_right hm (Nat.two_pow_pos _)
      _ = 2 ^ (m.log2 + 1 + (q - j).toNat) := (Nat.pow_add _ _ _).symm
      _ ≤ 2 ^ (n + 1) := Nat.pow_le_pow_right (by norm_num) hPow
  · -- the mantissa is scaled down by `2 ^ (j - q)`, exactly
    obtain rfl := Option.some.inj hk
    have hPow : m.log2 + 1 ≤ n + 1 + (j - q).toNat := by omega
    rw [Nat.pow_eq, Nat.div_lt_iff_lt_mul (Nat.two_pow_pos _)]
    calc m < 2 ^ (m.log2 + 1) := hm
      _ ≤ 2 ^ (n + 1 + (j - q).toNat) := Nat.pow_le_pow_right (by norm_num) hPow
      _ = 2 ^ (n + 1) * 2 ^ (j - q).toNat := Nat.pow_add _ _ _
theorem two_mul_bias (f : Format) (hf : 1 ≤ f.exponentBits) :
    2 * f.bias + 2 = 2 ^ f.exponentBits := by
  have hPow : 2 ^ f.exponentBits = 2 * 2 ^ (f.exponentBits - 1) := by
    rw [← pow_succ']
    congr 1
    omega
  have hOne : 1 ≤ 2 ^ (f.exponentBits - 1) := Nat.one_le_two_pow
  simp only [bias, Nat.pow_eq]
  omega

/-- An encoding in a format fits the format's width: the fraction, the exponent and the sign. -/
theorem encode?_lt (f : Format) (hf : 2 ≤ f.exponentBits) {x : Float} {r : Nat}
    (h : f.encode? x = some r) : r < 2 ^ (f.fractionBits + f.exponentBits + 1) := by
  unfold encode? at h
  generalize Binary.ofFloat x = b at h
  generalize hs : (if x.toBits >>> 63 == 1 then Nat.pow 2 (f.fractionBits + f.exponentBits) else 0) = sign at h
  have hWidth : 2 ^ (f.fractionBits + f.exponentBits) = 2 ^ f.exponentBits * 2 ^ f.fractionBits := by
    rw [Nat.pow_add, Nat.mul_comm]
  have hSign : sign ≤ 2 ^ f.exponentBits * 2 ^ f.fractionBits := by
    rw [← hs, ← hWidth]
    split <;> simp [Nat.pow_eq]
  have hTop : 2 ^ (f.fractionBits + f.exponentBits + 1) = 2 * (2 ^ f.exponentBits * 2 ^ f.fractionBits) := by
    rw [pow_succ, hWidth, Nat.mul_comm]
  simp only at h
  split_ifs at h with hZero hBias
  · obtain rfl := Option.some.inj h
    have hPos : 0 < 2 ^ f.exponentBits * 2 ^ f.fractionBits := by positivity
    rw [hTop]
    omega
  · obtain ⟨k, hk, rfl⟩ := Option.map_eq_some_iff.1 h
    have hk' := rescale_lt (n := f.fractionBits) hk (by omega)
    have hBias2 := f.two_mul_bias (by omega)
    -- the exponent field stays below the top field, so field and fraction fit below 2 ^ (fb + eb)
    have hField : (max (b.exponent + (b.mantissa.log2 : Int) + f.bias) 1 - 1).toNat + 2 ≤ 2 ^ f.exponentBits := by
      omega
    have hMul := Nat.mul_le_mul_right (2 ^ f.fractionBits) hField
    rw [Nat.add_mul] at hMul
    rw [pow_succ] at hk'
    rw [hTop, Nat.pow_eq]
    omega

end Format

namespace Cbor

@[simp] theorem bigEndian_zero (v : Nat) : bigEndian 0 v = [] := rfl

theorem bigEndian_succ (n v : Nat) :
    bigEndian (n + 1) v = bigEndian n (v / 256) ++ [UInt8.ofNat (v % 256)] := rfl

@[simp]
theorem length_bigEndian (n v : Nat) : (bigEndian n v).length = n := by
  induction n generalizing v with
  | zero => rfl
  | succ n ih => simp [bigEndian_succ, ih]

theorem ofBigEndian_append_single (l : Bytes) (b : UInt8) :
    ofBigEndian (l ++ [b]) = ofBigEndian l * 256 + b.toNat := by
  simp [ofBigEndian, List.foldl_append]

theorem ofBigEndian_bigEndian (n v : Nat) : ofBigEndian (bigEndian n v) = v % 256 ^ n := by
  induction n generalizing v with
  | zero => rw [Nat.pow_zero, Nat.mod_one]; rfl
  | succ n ih =>
    rw [bigEndian_succ, ofBigEndian_append_single, ih, pow_succ', Nat.mod_mul,
      UInt8.toNat_ofNat_of_lt' (by unfold UInt8.size; omega)]
    ring

theorem Head.read_short (major n : Nat) (hMajor : major < 8) (hn : n < 24) (rest : Bytes) :
    Head.read (UInt8.ofNat (major * 32 + n) :: rest) = .ok (⟨major, n, n⟩, rest) := by
  have hb : (major * 32 + n) % 256 = major * 32 + n := by omega
  have hMaj : (major * 32 + n) / 32 = major := by omega
  have hInfo : (major * 32 + n) % 32 = n := by omega
  simp [Head.read, hb, hMaj, hInfo, hn]
  rfl

theorem Head.read_long (major info : Nat) {n : Nat} (hMajor : major < 8) (hInfo : 24 ≤ info ∧ info ≤ 27)
    (hn : n < 256 ^ 2 ^ (info - 24)) (rest : Bytes) :
    Head.read (UInt8.ofNat (major * 32 + info) :: (bigEndian (2 ^ (info - 24)) n ++ rest)) =
      .ok (⟨major, info, n⟩, rest) := by
  have hb : (major * 32 + info) % 256 = major * 32 + info := by omega
  have hMaj : (major * 32 + info) / 32 = major := by omega
  have hMod : (major * 32 + info) % 32 = info := by omega
  have hTake : (bigEndian (2 ^ (info - 24)) n ++ rest).take (2 ^ (info - 24)) = bigEndian (2 ^ (info - 24)) n :=
    List.take_left' (length_bigEndian _ _)
  have hDrop : (bigEndian (2 ^ (info - 24)) n ++ rest).drop (2 ^ (info - 24)) = rest :=
    List.drop_left' (length_bigEndian _ _)
  simp [Head.read, hb, hMaj, hMod, hTake, hDrop, ofBigEndian_bigEndian, Nat.mod_eq_of_lt hn,
    show ¬ info < 24 by omega]
  rw [if_pos hInfo.2]
  rfl

theorem bigEndian_one (n : Nat) : bigEndian 1 n = [UInt8.ofNat n] := by
  simp [bigEndian_succ, ← UInt8.toNat_inj]

/-- The shortest head of an argument below `2 ^ 64` reads back. -/
theorem Head.read_head (major n : Nat) (hMajor : major < 8) (hn : n < 2 ^ 64) (rest : Bytes) :
    ∃ info, info ≠ 31 ∧ Head.read (head major n ++ rest) = .ok (⟨major, info, n⟩, rest) := by
  unfold head
  split_ifs with h24 h8 h16 h32
  · exact ⟨n, by omega, Head.read_short major n hMajor h24 rest⟩
  · exact ⟨24, by omega, Head.read_long major 24 hMajor (by omega) h8 rest⟩
  · exact ⟨25, by omega, Head.read_long major 25 hMajor (by omega) h16 rest⟩
  · exact ⟨26, by omega, Head.read_long major 26 hMajor (by omega) h32 rest⟩
  · exact ⟨27, by omega, Head.read_long major 27 hMajor (by omega) hn rest⟩

theorem length_head_pos (major n : Nat) : 0 < (head major n).length := by
  unfold head
  split_ifs <;> simp

theorem Item.length_encode_pos (x : Item) : 0 < x.encode.length := by
  cases x with
  | simple n =>
    rw [Item.encode]
    split <;> simp
  | float w b => cases w <;> simp [Item.encode]
  | _ => simp [Item.encode, length_head_pos]

/-- Items that are written in the form that is read back, at nesting depth `d`: integers below
`2 ^ 64`, strings shorter than `2 ^ 63` bytes, text in one chunk, arrays and maps of at most
`maxEntries` entries that do not pass `maxDepth`, the simple values that have a form of their
own, floats whose bits fit their width, and no tags. -/
inductive Plain : Nat → Item → Prop
  | unsigned {d n : Nat} : n < 2 ^ 64 → Plain d (.unsigned n)
  | negative {d n : Nat} : n < 2 ^ 64 → Plain d (.negative n)
  | bytes {d : Nat} {b : Bytes} : b.length < 2 ^ 63 → Plain d (.bytes b)
  | text {d : Nat} {b : Bytes} : b.length < 2 ^ 63 → Plain d (.text [b])
  | array {d : Nat} {xs : List Item} : d < maxDepth → xs.length ≤ maxEntries →
      (∀ x ∈ xs, Plain (d + 1) x) → Plain d (.array xs)
  | map {d : Nat} {es : List (Item × Item)} : d < maxDepth → es.length ≤ maxEntries →
      (∀ e ∈ es, Plain (d + 1) e.1) → (∀ e ∈ es, Plain (d + 1) e.2) → Plain d (.map es)
  | simple {d n : Nat} : n < 24 ∨ 32 ≤ n ∧ n < 256 → Plain d (.simple n)
  | half {d b : Nat} : b < 2 ^ 16 → Plain d (.float .half b)
  | single {d b : Nat} : b < 2 ^ 32 → Plain d (.float .single b)
  | double {d b : Nat} : b < 2 ^ 64 → Plain d (.float .double b)

/-- What reading an item back at depth `d` means, with enough fuel and whatever follows. -/
def ReadsBack (d : Nat) (x : Item) : Prop :=
  ∀ fuel : Nat, 2 * x.encode.length ≤ fuel → ∀ (afterTag : Bool) (rest : Bytes),
    readItem fuel d afterTag (x.encode ++ rest) = .ok (x, rest)

@[simp] theorem Item.encodeAll_nil : Item.encodeAll [] = [] := rfl

@[simp] theorem Item.encodeAll_cons (x : Item) (xs : List Item) :
    Item.encodeAll (x :: xs) = x.encode ++ Item.encodeAll xs := rfl

theorem readCount_encodeAll {d : Nat} {xs : List Item} (h : ∀ x ∈ xs, ReadsBack d x) :
    ∀ (fuel : Nat), 2 * (Item.encodeAll xs).length < fuel → ∀ rest : Bytes,
      readCount fuel d xs.length (Item.encodeAll xs ++ rest) = .ok (xs, rest) := by
  induction xs with
  | nil =>
    intro fuel hFuel rest
    obtain ⟨fuel, rfl⟩ : ∃ f, fuel = f + 1 := ⟨fuel - 1, by omega⟩
    rw [List.length_nil, Item.encodeAll_nil, List.nil_append, readCount]
    rfl
  | cons x xs ih =>
    intro fuel hFuel rest
    have hx := Item.length_encode_pos x
    simp only [Item.encodeAll_cons, List.length_append] at hFuel
    obtain ⟨fuel, rfl⟩ : ∃ f, fuel = f + 1 := ⟨fuel - 1, by omega⟩
    have hHead : readItem fuel d false (x.encode ++ (Item.encodeAll xs ++ rest)) =
        .ok (x, Item.encodeAll xs ++ rest) := h x List.mem_cons_self fuel (by omega) false _
    have hTail := ih (fun y hy => h y (List.mem_cons_of_mem x hy)) fuel (by omega) rest
    rw [List.length_cons, readCount, Item.encodeAll_cons, List.append_assoc, hHead]
    simp only [bind, Except.bind, hTail]
    rfl

theorem takeContent_append {major : Nat} {b : Bytes} (hb : b.length < 2 ^ 63) (rest : Bytes) :
    takeContent major b.length (b ++ rest) = .ok (b, rest) := by
  have hLong : ¬ b.length ≥ Nat.pow 2 63 := by simpa using hb
  simp [takeContent, hLong]
  rfl

theorem Item.encodeEntries_eq (es : List (Item × Item)) :
    Item.encodeEntries es = Item.encodeAll (es.flatMap fun e => [e.1, e.2]) := by
  induction es with
  | nil => simp [Item.encodeEntries]
  | cons e es ih => simp [Item.encodeEntries, ih]

theorem pairUp_flatMap (es : List (Item × Item)) : pairUp (es.flatMap fun e => [e.1, e.2]) = es := by
  induction es with
  | nil => simp [pairUp]
  | cons e es ih => simp [pairUp, ih]

section Body

variable {fuel d info n : Nat} {afterTag : Bool} {bs rest : Bytes}

-- Each lemma of the section takes one step of `readItem`: its equations are made once, here,
-- and not by each lemma at once.
attribute [local simp] readItem

theorem readItem_unsigned (hHead : Head.read bs = .ok (⟨0, info, n⟩, rest)) :
    readItem (fuel + 1) d afterTag bs = .ok (.unsigned n, rest) := by
  rw [readItem, hHead]
  rfl

theorem readItem_negative (hHead : Head.read bs = .ok (⟨1, info, n⟩, rest)) :
    readItem (fuel + 1) d afterTag bs = .ok (.negative n, rest) := by
  rw [readItem, hHead]
  rfl

theorem readItem_string {major : Nat} {c rest' : Bytes} (hMajor : major = 2 ∨ major = 3)
    (hInfo : info ≠ 31) (hHead : Head.read bs = .ok (⟨major, info, n⟩, rest))
    (hContent : takeContent major n rest = .ok (c, rest')) :
    readItem (fuel + 1) d afterTag bs = .ok (if major = 2 then .bytes c else .text [c], rest') := by
  have hIndef : (info == 31) = false := beq_false_of_ne hInfo
  rw [readItem, hHead]
  obtain rfl | rfl := hMajor <;>
    simp [bind, Except.bind, Head.indefinite, hIndef, hContent, pure, Except.pure]

theorem readItem_container {major : Nat} {xs : List Item} {rest' : Bytes} (hMajor : major = 4 ∨ major = 5)
    (hInfo : info ≠ 31) (hDepth : d < maxDepth) (hn : n ≤ maxEntries)
    (hHead : Head.read bs = .ok (⟨major, info, n⟩, rest))
    (hItems : readCount fuel (d + 1) (n * if major = 4 then 1 else 2) rest = .ok (xs, rest')) :
    readItem (fuel + 1) d afterTag bs =
      .ok (if major = 4 then .array xs else .map (pairUp xs), rest') := by
  have hIndef : (info == 31) = false := beq_false_of_ne hInfo
  have hDepth' : ¬ maxDepth ≤ d := by omega
  have hLong : ¬ 9223372036854775808 ≤ n := by simp only [maxEntries] at hn; omega
  have hMany : ¬ maxEntries < n := by omega
  rw [readItem, hHead]
  obtain rfl | rfl := hMajor <;> simp at hItems <;>
    simp [bind, Except.bind, Head.indefinite, hIndef, hDepth', hLong, hMany, hItems, pure, Except.pure]

theorem readItem_simple (hHead : Head.read bs = .ok (⟨7, info, n⟩, rest))
    (hShape : info < 24 ∧ n = info ∨ info = 24 ∧ 32 ≤ n) :
    readItem (fuel + 1) d afterTag bs = .ok (.simple n, rest) := by
  rw [readItem, hHead]
  rcases hShape with ⟨h24, rfl⟩ | ⟨rfl, h32⟩
  · simp [bind, Except.bind, h24, pure, Except.pure]
  · simp [bind, Except.bind, show ¬ n < 32 by omega, pure, Except.pure]

theorem readItem_float {w : Width} (hHead : Head.read bs = .ok (⟨7, info, n⟩, rest))
    (hWidth : info = 25 ∧ w = .half ∨ info = 26 ∧ w = .single ∨ info = 27 ∧ w = .double) :
    readItem (fuel + 1) d afterTag bs = .ok (.float w n, rest) := by
  rw [readItem, hHead]
  rcases hWidth with ⟨rfl, rfl⟩ | ⟨rfl, rfl⟩ | ⟨rfl, rfl⟩ <;>
    simp [bind, Except.bind, pure, Except.pure]

end Body

theorem readsBack_of_succ {d : Nat} {x : Item}
    (h : ∀ fuel, 2 * x.encode.length ≤ fuel + 1 → ∀ (afterTag : Bool) (rest : Bytes),
      readItem (fuel + 1) d afterTag (x.encode ++ rest) = .ok (x, rest)) : ReadsBack d x := by
  intro fuel hFuel afterTag rest
  have hPos := Item.length_encode_pos x
  obtain ⟨fuel, rfl⟩ : ∃ f, fuel = f + 1 := ⟨fuel - 1, by omega⟩
  exact h fuel hFuel afterTag rest

/-- Every plain item reads back from its bytes. -/
theorem Plain.readsBack {d : Nat} {x : Item} (h : Plain d x) : ReadsBack d x := by
  induction h with
  | @unsigned d n hn =>
    refine readsBack_of_succ fun fuel _ afterTag rest => ?_
    obtain ⟨info, -, hHead⟩ := Head.read_head 0 n (by omega) hn rest
    exact readItem_unsigned hHead
  | @negative d n hn =>
    refine readsBack_of_succ fun fuel _ afterTag rest => ?_
    obtain ⟨info, -, hHead⟩ := Head.read_head 1 n (by omega) hn rest
    exact readItem_negative hHead
  | @bytes d b hb =>
    refine readsBack_of_succ fun fuel _ afterTag rest => ?_
    obtain ⟨info, hInfo, hHead⟩ := Head.read_head 2 b.length (by omega) (by omega) (b ++ rest)
    rw [Item.encode, List.append_assoc]
    exact readItem_string (by omega) hInfo hHead (takeContent_append hb rest)
  | @text d b hb =>
    refine readsBack_of_succ fun fuel _ afterTag rest => ?_
    obtain ⟨info, hInfo, hHead⟩ := Head.read_head 3 b.length (by omega) (by omega) (b ++ rest)
    simp only [Item.encode, List.flatten_cons, List.flatten_nil, List.append_nil, List.append_assoc]
    exact readItem_string (by omega) hInfo hHead (takeContent_append hb rest)
  | @array d xs hd hn _ ih =>
    refine readsBack_of_succ fun fuel hFuel afterTag rest => ?_
    have hLen : xs.length < 2 ^ 64 := by simp only [maxEntries] at hn; omega
    obtain ⟨info, hInfo, hHead⟩ := Head.read_head 4 xs.length (by omega) hLen (Item.encodeAll xs ++ rest)
    simp only [Item.encode, List.length_append] at hFuel ⊢
    have hHeadLen := length_head_pos 4 xs.length
    have hItems := readCount_encodeAll ih fuel (by omega) rest
    rw [List.append_assoc]
    exact readItem_container (by omega) hInfo hd hn hHead (by simpa using hItems)
  | @map d es hd hn _ _ ih₁ ih₂ =>
    refine readsBack_of_succ fun fuel hFuel afterTag rest => ?_
    -- a map is read as the flat list of its keys and values, then paired up
    have hFlat : ∀ x ∈ es.flatMap (fun e => [e.1, e.2]), ReadsBack (d + 1) x := by
      intro x hx
      obtain ⟨e, he, hx⟩ := List.mem_flatMap.1 hx
      simp only [List.mem_cons, List.not_mem_nil, or_false] at hx
      rcases hx with rfl | rfl
      · exact ih₁ e he
      · exact ih₂ e he
    have hLen : es.length < 2 ^ 64 := by simp only [maxEntries] at hn; omega
    obtain ⟨info, hInfo, hHead⟩ := Head.read_head 5 es.length (by omega) hLen (Item.encodeEntries es ++ rest)
    simp only [Item.encode, List.length_append] at hFuel ⊢
    have hHeadLen := length_head_pos 5 es.length
    rw [Item.encodeEntries_eq] at hFuel hHead
    have hItems := readCount_encodeAll hFlat fuel (by omega) rest
    have hCount : (es.flatMap fun e => [e.1, e.2]).length = es.length * 2 := by
      simp [List.length_flatMap]
    rw [List.append_assoc, Item.encodeEntries_eq]
    conv_rhs => rw [← pairUp_flatMap es]
    exact readItem_container (by omega) hInfo hd hn hHead (by simpa [hCount] using hItems)
  | @simple d n hn =>
    refine readsBack_of_succ fun fuel _ afterTag rest => ?_
    rcases hn with h24 | ⟨h32, h256⟩
    · have hEnc : (Item.simple n).encode = [UInt8.ofNat (7 * 32 + n)] := by
        simp [Item.encode, h24, Nat.add_comm]
      rw [hEnc, List.singleton_append]
      exact readItem_simple (Head.read_short 7 n (by omega) h24 rest) (.inl ⟨h24, rfl⟩)
    · have hEnc : (Item.simple n).encode = UInt8.ofNat (7 * 32 + 24) :: bigEndian (2 ^ (24 - 24)) n := by
        simp [Item.encode, bigEndian_one, show ¬ n < 24 by omega]
      rw [hEnc, List.cons_append]
      exact readItem_simple (Head.read_long 7 24 (by omega) (by omega) (by simpa using h256) rest) (.inr ⟨rfl, h32⟩)
  | @half d b hb =>
    refine readsBack_of_succ fun fuel _ afterTag rest => ?_
    exact readItem_float (Head.read_long 7 25 (by omega) (by omega) (by simpa using hb) rest) (.inl ⟨rfl, rfl⟩)
  | @single d b hb =>
    refine readsBack_of_succ fun fuel _ afterTag rest => ?_
    exact readItem_float (Head.read_long 7 26 (by omega) (by omega) (by simpa using hb) rest) (.inr (.inl ⟨rfl, rfl⟩))
  | @double d b hb =>
    refine readsBack_of_succ fun fuel _ afterTag rest => ?_
    exact readItem_float (Head.read_long 7 27 (by omega) (by omega) (by simpa using hb) rest) (.inr (.inr ⟨rfl, rfl⟩))

/-- The float item written for a double is plain: its bits fit the width it is written in. -/
theorem plain_ofFloat (d : Nat) (x : Float) : Plain d (Item.ofFloat x) := by
  unfold Item.ofFloat
  split
  · exact .half (by norm_num)
  split
  · exact .half (by split <;> norm_num)
  split
  · rename_i bits hBits
    exact .half (by simpa [Format.half, Format.fractionBits] using Format.half.encode?_lt (by decide) hBits)
  split
  · rename_i bits hBits
    exact .single (by simpa [Format.single, Format.fractionBits] using Format.single.encode?_lt (by decide) hBits)
  · exact .double (UInt64.toNat_lt _)

/-- A plain item at the top level is what its bytes read as. -/
theorem Item.read_encode {x : Item} (h : Plain 0 x) : Item.read x.encode = .ok x := by
  have hPos := Item.length_encode_pos x
  have hRead := h.readsBack (2 * x.encode.length + 2) (by omega) false []
  have hNe : x.encode.isEmpty = false := List.isEmpty_eq_false_iff.2 (List.ne_nil_of_length_pos hPos)
  rw [List.append_nil] at hRead
  simp [Item.read, hNe, hRead, bind, Except.bind, pure, Except.pure]

end Cbor

end StackScript
