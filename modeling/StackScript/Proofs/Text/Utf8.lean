import Mathlib
import StackScript.Text.Bytes

/-! # Well-formed UTF-8

The decoder `Bytes.chars?` reads back the UTF-8 bytes of every character, and a well-formed
prefix decodes on its own. So the bytes of a string are well-formed and read back as that
string, and well-formed pieces join into well-formed bytes. An ASCII byte never continues a
sequence, so bytes split at one are well-formed exactly when both sides are
(`Bytes.isUtf8_append_ascii`).
-/

namespace ByteArray

theorem toList_eq_data_toList (bs : ByteArray) : bs.toList = bs.data.toList := by
  -- the loop has pushed the bytes before `i`, last first, onto `r`
  have hLoop : ∀ i r, r.reverse = bs.data.toList.take i →
      ByteArray.toList.loop bs i r = bs.data.toList := by
    intro i r
    fun_induction ByteArray.toList.loop bs i r with
    | case1 i r hi ih =>
      intro hr
      apply ih
      have hLt : i < bs.data.toList.length := by
        rw [Array.length_toList]
        exact hi
      have hGet : bs.get! i = bs.data.toList[i] := by
        obtain ⟨data⟩ := bs
        simp only [ByteArray.get!, Array.getElem_toList]
        exact getElem!_pos data i hi
      rw [List.reverse_cons, hr, List.take_add_one, List.getElem?_eq_getElem hLt, hGet]
      rfl
    | case2 i r hi =>
      intro hr
      have hLe : bs.data.toList.length ≤ i := by
        rw [Array.length_toList]
        exact Nat.le_of_not_lt hi
      rw [hr, List.take_of_length_le hLe]
  exact hLoop 0 [] rfl

end ByteArray

namespace StackScript

namespace Bytes

theorem chars?_encodeChar_append (c : Char) (r : Bytes) :
    chars? (String.utf8EncodeChar c ++ r) = (chars? r).map (c :: ·) := by
  have hValid : c.val.toNat < 0xd800 ∨ (0xdfff < c.val.toNat ∧ c.val.toNat < 0x110000) := by
    have := c.valid
    simpa [UInt32.isValidChar, Nat.isValidChar] using this
  have hChar : ∀ n, n = c.val.toNat → Char.ofNat n = c := by
    rintro n rfl
    exact Char.ofNat_toNat c
  unfold String.utf8EncodeChar
  by_cases h1 : c.val.toNat ≤ 0x7f
  · have hb0 := UInt8.toNat_ofNat_of_lt' (n := c.val.toNat) (by unfold UInt8.size; omega)
    rw [if_pos h1, List.cons_append, List.nil_append, chars?.eq_def]
    simp (disch := omega) only [UInt8.lt_iff_toNat_lt, hb0, if_pos, UInt8.reduceToNat, hChar]
  rw [if_neg h1]
  by_cases h2 : c.val.toNat ≤ 0x7ff
  · have hb0 := UInt8.toNat_ofNat_of_lt' (n := c.val.toNat / 64 % 32 + 192) (by unfold UInt8.size; omega)
    have hb1 := UInt8.toNat_ofNat_of_lt' (n := c.val.toNat % 64 + 128) (by unfold UInt8.size; omega)
    rw [if_pos h2, List.cons_append, List.cons_append, List.nil_append, chars?.eq_def]
    simp (disch := omega) only [UInt8.lt_iff_toNat_lt, UInt8.le_iff_toNat_le, hb0, hb1, isCont, low6,
      Bool.and_eq_true, decide_eq_true_eq, if_pos, if_neg, UInt8.reduceToNat, hChar]
  rw [if_neg h2]
  by_cases h3 : c.val.toNat ≤ 0xffff
  · have hb0 := UInt8.toNat_ofNat_of_lt' (n := c.val.toNat / 4096 % 16 + 224) (by unfold UInt8.size; omega)
    have hb1 := UInt8.toNat_ofNat_of_lt' (n := c.val.toNat / 64 % 64 + 128) (by unfold UInt8.size; omega)
    have hb2 := UInt8.toNat_ofNat_of_lt' (n := c.val.toNat % 64 + 128) (by unfold UInt8.size; omega)
    -- the second byte stays clear of overlong forms and surrogates
    have hSecond : secondOk (UInt8.ofNat (c.val.toNat / 4096 % 16 + 224))
        (UInt8.ofNat (c.val.toNat / 64 % 64 + 128)) = true := by
      simp only [secondOk, beq_iff_eq, ← UInt8.toNat_inj, hb0, hb1, UInt8.reduceToNat, isCont,
        UInt8.le_iff_toNat_le]
      split_ifs <;> simp only [Bool.and_eq_true, decide_eq_true_eq] <;> omega
    rw [if_pos h3, List.cons_append, List.cons_append, List.cons_append, List.nil_append, chars?.eq_def]
    simp (disch := omega) only [UInt8.lt_iff_toNat_lt, UInt8.le_iff_toNat_le, hb0, hb1, hb2, isCont,
      hSecond, low6, Bool.and_eq_true, decide_eq_true_eq, if_pos, if_neg, UInt8.reduceToNat, hChar, true_and]
  rw [if_neg h3]
  have hb0 := UInt8.toNat_ofNat_of_lt' (n := c.val.toNat / 262144 % 8 + 240) (by unfold UInt8.size; omega)
  have hb1 := UInt8.toNat_ofNat_of_lt' (n := c.val.toNat / 4096 % 64 + 128) (by unfold UInt8.size; omega)
  have hb2 := UInt8.toNat_ofNat_of_lt' (n := c.val.toNat / 64 % 64 + 128) (by unfold UInt8.size; omega)
  have hb3 := UInt8.toNat_ofNat_of_lt' (n := c.val.toNat % 64 + 128) (by unfold UInt8.size; omega)
  -- the second byte stays clear of overlong forms and values past U+10FFFF
  have hSecond : secondOk (UInt8.ofNat (c.val.toNat / 262144 % 8 + 240))
      (UInt8.ofNat (c.val.toNat / 4096 % 64 + 128)) = true := by
    simp only [secondOk, beq_iff_eq, ← UInt8.toNat_inj, hb0, hb1, UInt8.reduceToNat, isCont,
      UInt8.le_iff_toNat_le]
    split_ifs <;> simp only [Bool.and_eq_true, decide_eq_true_eq] <;> omega
  rw [List.cons_append, List.cons_append, List.cons_append, List.cons_append, List.nil_append,
    chars?.eq_def]
  simp (disch := omega) only [UInt8.lt_iff_toNat_lt, UInt8.le_iff_toNat_le, hb0, hb1, hb2, hb3, isCont,
    hSecond, low6, Bool.and_eq_true, decide_eq_true_eq, if_pos, if_neg, UInt8.reduceToNat, hChar, true_and]

theorem ofString_eq_flatMap (s : String) : ofString s = s.toList.flatMap String.utf8EncodeChar := by
  conv_lhs => rw [ofString, ← String.ofList_toList (s := s)]
  rw [String.toUTF8_eq_toByteArray, String.toByteArray_ofList, ByteArray.toList_eq_data_toList]
  exact List.toList_data_toByteArray

theorem chars?_flatMap_encodeChar (l : List Char) : chars? (l.flatMap String.utf8EncodeChar) = some l := by
  induction l with
  | nil => rfl
  | cons c l ih => simp [List.flatMap_cons, chars?_encodeChar_append, ih]

@[simp]
theorem chars?_ofString (s : String) : chars? (ofString s) = some s.toList := by
  rw [ofString_eq_flatMap, chars?_flatMap_encodeChar]

@[simp]
theorem isUtf8_ofString (s : String) : isUtf8 (ofString s) = true := by
  simp [isUtf8]

@[simp]
theorem toString?_ofString (s : String) : toString? (ofString s) = some s := by
  simp [toString?]

theorem chars?_append {a : Bytes} {x : List Char} (h : chars? a = some x) (b : Bytes) :
    chars? (a ++ b) = (chars? b).map (x ++ ·) := by
  fun_induction chars? a generalizing x with
  | case1 =>
    cases h
    simp
  | case2 b0 r0 h0 ih =>
    obtain ⟨y, hy, rfl⟩ := Option.map_eq_some_iff.1 h
    rw [List.cons_append, chars?.eq_def]
    simp [h0, ih hy, Option.map_map, Function.comp_def]
  | case3 b0 h0 h0' b1 r1 h1 ih =>
    obtain ⟨y, hy, rfl⟩ := Option.map_eq_some_iff.1 h
    rw [List.cons_append, List.cons_append, chars?.eq_def]
    simp [h0, h0', h1, ih hy, Option.map_map, Function.comp_def]
  | case6 b0 h0 h0' h0'' b1 b2 r2 h1 ih =>
    obtain ⟨y, hy, rfl⟩ := Option.map_eq_some_iff.1 h
    rw [List.cons_append, List.cons_append, List.cons_append, chars?.eq_def]
    simp [h0, h0', h0'', h1, ih hy, Option.map_map, Function.comp_def]
  | case9 b0 h0 h0' h0'' h0''' b1 b2 b3 r3 h1 ih =>
    obtain ⟨y, hy, rfl⟩ := Option.map_eq_some_iff.1 h
    rw [List.cons_append, List.cons_append, List.cons_append, List.cons_append, chars?.eq_def]
    simp [h0, h0', h0'', h0''', h1, ih hy, Option.map_map, Function.comp_def]
  -- every other case is a decoding failure
  | case4 | case5 | case7 | case8 | case10 | case11 | case12 => cases h

theorem isUtf8_append {a b : Bytes} (ha : isUtf8 a = true) (hb : isUtf8 b = true) :
    isUtf8 (a ++ b) = true := by
  obtain ⟨x, hx⟩ := Option.isSome_iff_exists.1 ha
  simpa [isUtf8, chars?_append hx] using hb

theorem isUtf8_flatten {cs : List Bytes} (h : ∀ b ∈ cs, isUtf8 b = true) : isUtf8 cs.flatten = true := by
  induction cs with
  | nil => rfl
  | cons b cs ih =>
    rw [List.flatten_cons]
    exact isUtf8_append (h b List.mem_cons_self) (ih fun b' hb' => h b' (List.mem_cons_of_mem b hb'))

/-! ## Splitting at an ASCII byte -/

theorem secondOk_ascii (lead : UInt8) {q : UInt8} (hq : q < 0x80) : secondOk lead q = false := by
  have hq' : q.toNat < 128 := hq
  simp only [secondOk, isCont, UInt8.le_iff_toNat_le, UInt8.reduceToNat]
  split_ifs <;> simp <;> omega

theorem isCont_ascii {q : UInt8} (hq : q < 0x80) : isCont q = false := by
  have hq' : q.toNat < 128 := hq
  simp only [isCont, UInt8.le_iff_toNat_le, UInt8.reduceToNat]
  simp
  omega

/-- An ASCII byte never continues a sequence, so decoding splits at it. -/
theorem chars?_append_ascii {q : UInt8} (hq : q < 0x80) (a b : Bytes) :
    chars? (a ++ q :: b) = (chars? a).bind fun x => (chars? b).map fun y => x ++ Char.ofNat q.toNat :: y := by
  have hCont := isCont_ascii hq
  fun_induction chars? a with
  | case1 =>
    rw [List.nil_append, chars?.eq_def]
    simp [hq]
  | case2 b0 r0 h0 ih =>
    rw [List.cons_append, chars?.eq_def]
    simp only [h0, if_true, ih]
    cases chars? r0 <;> simp [Function.comp_def]
  | case3 b0 h0 h0' b1 r1 h1 ih =>
    rw [List.cons_append, List.cons_append, chars?.eq_def]
    simp only [h0, h0', h1, if_false, if_true, ih]
    cases chars? r1 <;> simp [Function.comp_def]
  | case6 b0 h0 h0' h0'' b1 b2 r2 h1 ih =>
    rw [List.cons_append, List.cons_append, List.cons_append, chars?.eq_def]
    simp only [h0, h0', h0'', h1, if_false, if_true, ih]
    cases chars? r2 <;> simp [Function.comp_def]
  | case9 b0 h0 h0' h0'' h0''' b1 b2 b3 r3 h1 ih =>
    rw [List.cons_append, List.cons_append, List.cons_append, List.cons_append, chars?.eq_def]
    simp only [h0, h0', h0'', h0''', h1, if_false, if_true, ih]
    cases chars? r3 <;> simp [Function.comp_def]
  -- the other cases fail on `a`, and an ASCII byte in their place fails as well
  | case4 b0 h0 h0' b1 r1 h1 =>
    rw [List.cons_append, List.cons_append, chars?.eq_def]
    simp [h0, h0', h1]
  | case5 b0 h0 h0' =>
    rw [List.singleton_append, chars?.eq_def]
    simp [h0, h0', hCont]
  | case7 b0 h0 h0' h0'' b1 b2 r2 h1 =>
    rw [List.cons_append, List.cons_append, List.cons_append, chars?.eq_def]
    simp [h0, h0', h0'', h1]
  | case8 b0 r0 h0 h0' h0'' hShort =>
    rw [List.cons_append, chars?.eq_def]
    match r0, b, hShort with
    | [], [], _ => simp [h0, h0', h0'']
    | [], _ :: _, _ => simp [h0, h0', h0'', secondOk_ascii _ hq]
    | [_], _, _ => simp [h0, h0', h0'', hCont]
    | _ :: _ :: _, _, h => exact absurd rfl (h _ _ _)
  | case10 b0 h0 h0' h0'' h0''' b1 b2 b3 r3 h1 =>
    rw [List.cons_append, List.cons_append, List.cons_append, List.cons_append, chars?.eq_def]
    simp [h0, h0', h0'', h0''', h1]
  | case11 b0 r0 h0 h0' h0'' h0''' hShort =>
    rw [List.cons_append, chars?.eq_def]
    match r0, b, hShort with
    | [], [], _ | [], [_], _ => simp [h0, h0', h0'', h0''']
    | [], _ :: _ :: _, _ => simp [h0, h0', h0'', h0''', secondOk_ascii _ hq]
    | [_], [], _ => simp [h0, h0', h0'', h0''']
    | [_], _ :: _, _ | [_, _], _, _ => simp [h0, h0', h0'', h0''', hCont]
    | _ :: _ :: _ :: _, _, h => exact absurd rfl (h _ _ _ _)
  | case12 b0 r0 h0 h0' h0'' h0''' =>
    rw [List.cons_append, chars?.eq_def]
    simp [h0, h0', h0'', h0''']

/-- Bytes split at an ASCII byte are well-formed exactly when both sides are. -/
theorem isUtf8_append_ascii {q : UInt8} (hq : q < 0x80) (a b : Bytes) :
    isUtf8 (a ++ q :: b) = (isUtf8 a && isUtf8 b) := by
  simp only [isUtf8, chars?_append_ascii hq]
  cases chars? a <;> cases chars? b <;> rfl

/-- ASCII bytes are well-formed UTF-8. -/
theorem isUtf8_of_ascii : ∀ {b : Bytes}, (∀ x ∈ b, x < 0x80) → isUtf8 b = true
  | [], _ => rfl
  | x :: b, h => by
    have hSplit := isUtf8_append_ascii (h x List.mem_cons_self) [] b
    rw [List.nil_append] at hSplit
    rw [hSplit, isUtf8_of_ascii fun y hy => h y (List.mem_cons_of_mem x hy)]
    rfl

end Bytes

end StackScript
