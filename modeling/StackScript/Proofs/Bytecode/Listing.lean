import Mathlib
import StackScript.Bytecode.Listing
import StackScript.Proofs.Compiler.Emission

/-! # Listings follow the instruction walk

Code is read as a walk over the offsets where instructions start: the first at offset 0, each
next one past the op code and the operand bytes of the one before, a byte that names no
instruction counting as one byte (`opSpan`), up to the end of the code (`Chunk.starts`).

A listing is its title and one row for each start of the walk (`chunkSection_eq`): the offset in
four digits, the source line or `   |`, the name, and the operand with the constant it names. It
ends with an error exactly when the walk ends at an instruction whose operand byte lies past the
end of the code, and the last row then names that instruction alone.

The `   |` mark compares the line of an instruction with the line of the byte just before it,
which is the last byte of the instruction before. Where every instruction records one line for
all of its bytes (`Chunk.LinesWhole`), as every compiled chunk does, the mark shows exactly when
the line repeats the line of the instruction before (`chunkSection_follows_walk`). A chunk read
from a file or built by hand need not record lines so, and there the two rules part
(`mark_follows_operand_byte`).
-/

namespace StackScript

set_option autoImplicit false

/-- The bytes an instruction spans: its op code and its operand bytes. A byte that names no
instruction spans itself alone. -/
def opSpan (b : UInt8) : Nat :=
  match Op.ofByte? b with
  | some op => op.operands + 1
  | none => 1

theorem one_le_opSpan (b : UInt8) : 1 ≤ opSpan b := by
  unfold opSpan
  split <;> omega

theorem opSpan_of_op {b : UInt8} {op : Op} (h : Op.ofByte? b = some op) :
    opSpan b = op.operands + 1 := by
  simp [opSpan, h]

namespace Chunk

/-- The offsets where instructions start, from `o` to the end of the code. -/
def starts (c : Chunk) (o : Nat) : List Nat :=
  if o < c.code.size then o :: c.starts (o + opSpan (c.code.getD o 0)) else []
termination_by c.code.size - o
decreasing_by
  have := one_le_opSpan (c.code.getD o 0)
  omega

/-- Whether the instruction at `o` runs past the end of the code. -/
def cutAt (c : Chunk) (o : Nat) : Bool := decide (c.code.size < o + opSpan (c.code.getD o 0))

variable {c : Chunk}

theorem starts_of_lt {o : Nat} (h : o < c.code.size) :
    c.starts o = o :: c.starts (o + opSpan (c.code.getD o 0)) := by
  rw [starts, if_pos h]

theorem starts_of_le {o : Nat} (h : c.code.size ≤ o) : c.starts o = [] := by
  rw [starts, if_neg (by omega)]

theorem mem_starts {o d : Nat} (h : d ∈ c.starts o) : o ≤ d ∧ d < c.code.size := by
  induction o using Chunk.starts.induct c with
  | case1 o hLt ih =>
    rw [starts_of_lt hLt, List.mem_cons] at h
    rcases h with rfl | h
    · exact ⟨le_rfl, hLt⟩
    · have := ih h
      omega
  | case2 o hLe => simp [starts_of_le (Nat.le_of_not_lt hLe)] at h

/-- The walk from any of its starts is the rest of the walk. -/
theorem starts_suffix {o d : Nat} (h : d ∈ c.starts o) : c.starts d <:+ c.starts o := by
  induction o using Chunk.starts.induct c with
  | case1 o hLt ih =>
    rw [starts_of_lt hLt, List.mem_cons] at h
    rcases h with rfl | h
    · exact List.suffix_refl _
    · rw [starts_of_lt hLt]
      exact (ih h).trans (List.suffix_cons _ _)
  | case2 o hLe => simp [starts_of_le (Nat.le_of_not_lt hLe)] at h

/-- A start followed by one more instruction: the next start is part of the walk too. -/
theorem next_mem_starts {o d : Nat} (h : d ∈ c.starts o)
    (hNext : d + opSpan (c.code.getD d 0) < c.code.size) :
    d + opSpan (c.code.getD d 0) ∈ c.starts o := by
  have hd := (mem_starts h).2
  refine (starts_suffix h).subset ?_
  rw [starts_of_lt hd, starts_of_lt hNext]
  simp

/-- An instruction is cut off exactly when its byte names an instruction whose operand lies past
the end of the code. -/
theorem cutAt_iff {d : Nat} (hd : d < c.code.size) :
    c.cutAt d = true ↔
      ∃ op, Op.ofByte? (c.code.getD d 0) = some op ∧ c.code.size < d + 1 + op.operands := by
  rcases hOp : Op.ofByte? (c.code.getD d 0) with _ | op
  · -- a byte that names no instruction spans itself alone, which lies in the code
    have hw : opSpan (c.code.getD d 0) = 1 := by simp only [opSpan, hOp]
    simp only [cutAt, hw, decide_eq_true_eq, reduceCtorEq, false_and, exists_false, iff_false]
    omega
  · simp only [cutAt, opSpan_of_op hOp, decide_eq_true_eq, Option.some.injEq, exists_eq_left']
    omega

/-- The walk meets a cut instruction exactly when one of its starts names an instruction whose
operand lies past the end of the code. -/
theorem any_cutAt_iff {o : Nat} :
    (c.starts o).any c.cutAt = true ↔
      ∃ d ∈ c.starts o, ∃ op, Op.ofByte? (c.code.getD d 0) = some op ∧
        c.code.size < d + 1 + op.operands := by
  rw [List.any_eq_true]
  constructor
  · rintro ⟨d, hd, hCut⟩
    exact ⟨d, hd, (cutAt_iff (mem_starts hd).2).mp hCut⟩
  · rintro ⟨d, hd, hOp⟩
    exact ⟨d, hd, (cutAt_iff (mem_starts hd).2).mpr hOp⟩

/-- A cut instruction is the last of the walk. -/
theorem starts_of_cutAt {d : Nat} (hd : d < c.code.size) (hCut : c.cutAt d = true) :
    c.starts d = [d] := by
  have hEnd : c.code.size < d + opSpan (c.code.getD d 0) := by simpa [cutAt] using hCut
  rw [starts_of_lt hd, starts_of_le hEnd.le]

/-- Every instruction of the walk records one line: each of its operand bytes in the code
carries the line of its op code. -/
def LinesWhole (c : Chunk) : Prop :=
  ∀ d ∈ c.starts 0, ∀ k, d < k → k < d + opSpan (c.code.getD d 0) → k < c.code.size →
    c.lineAt k = c.lineAt d

/-- Where instructions record one line, the byte before a start records the line of the start
before it. -/
theorem LinesWhole.lineAt_before (hW : c.LinesWhole) {p : Nat} (hp : p ∈ c.starts 0)
    (hNext : p + opSpan (c.code.getD p 0) < c.code.size) :
    c.lineAt (((p + opSpan (c.code.getD p 0) : Nat) : Int) - 1) = c.lineAt p := by
  have hw := one_le_opSpan (c.code.getD p 0)
  have hCast : ((p + opSpan (c.code.getD p 0) : Nat) : Int) - 1 =
      ((p + opSpan (c.code.getD p 0) - 1 : Nat) : Int) := by omega
  rw [hCast]
  rcases Nat.lt_or_ge p (p + opSpan (c.code.getD p 0) - 1) with hLt | hGe
  · exact hW p hp _ hLt (by omega) (by omega)
  · rw [show p + opSpan (c.code.getD p 0) - 1 = p by omega]

/-! ## Code laid out as placed instructions -/

section Places

variable {ps : List Placed}

/-- At the start of a placed instruction the code holds its op code. -/
theorem Places.getD_start (h : c.Places ps) {qs rs : List Placed} {p : Placed}
    (hps : ps = qs ++ p :: rs) :
    c.code.getD (encode (qs.map Placed.instr)).length 0 = p.instr.op.code := by
  have hCode := h.code
  rw [hps] at hCode
  rw [Array.getD_eq_getD_getElem?, ← Array.getElem?_toList, hCode]
  simp [encode_append, Instr.bytes]

theorem Places.opSpan_start (h : c.Places ps) {qs rs : List Placed} {p : Placed}
    (hps : ps = qs ++ p :: rs) :
    opSpan (c.code.getD (encode (qs.map Placed.instr)).length 0) = p.instr.bytes.length := by
  rw [h.getD_start hps, opSpan_of_op (Op.ofByte?_code _), Instr.length_bytes]

/-- Every byte of a placed instruction records its line. -/
theorem Places.lineAt_inside (h : c.Places ps) {qs rs : List Placed} {p : Placed}
    (hps : ps = qs ++ p :: rs) {k : Nat} (hLo : (encode (qs.map Placed.instr)).length ≤ k)
    (hHi : k < (encode (qs.map Placed.instr)).length + p.instr.bytes.length) :
    c.lineAt k = p.line := by
  have hLines := h.lines
  rw [hps, List.flatMap_append, List.flatMap_cons] at hLines
  have hLen := length_flatMap_lines qs
  have hOwn : (p.lines).length = p.instr.bytes.length := by simp [Placed.lines]
  unfold lineAt
  rw [if_neg (by omega), Int.toNat_natCast, Array.getD_eq_getD_getElem?, ← Array.getElem?_toList,
    hLines, List.getElem?_append_right (by omega), List.getElem?_append_left (by omega)]
  have hIdx : k - (qs.flatMap Placed.lines).length < p.instr.bytes.length := by omega
  simp only [Placed.lines, List.getElem?_replicate, hIdx, if_true, Option.getD_some]

/-- The walk over code laid out as placed instructions stands at the start of each. -/
theorem Places.mem_starts (h : c.Places ps) : ∀ (rs qs : List Placed), ps = qs ++ rs →
    ∀ d ∈ c.starts (encode (qs.map Placed.instr)).length,
      ∃ qs' p rs', ps = qs' ++ p :: rs' ∧ d = (encode (qs'.map Placed.instr)).length := by
  have hSize : c.code.size = (encode (ps.map Placed.instr)).length := by
    rw [← Array.length_toList, h.code]
  intro rs
  induction rs with
  | nil =>
    intro qs hps d hd
    rw [starts_of_le (by rw [hSize, hps, List.append_nil])] at hd
    simp at hd
  | cons p rs ih =>
    intro qs hps d hd
    have hLt : (encode (qs.map Placed.instr)).length < c.code.size := by
      rw [hSize, hps]
      simp [encode_append]
    rw [starts_of_lt hLt, h.opSpan_start hps, List.mem_cons] at hd
    rcases hd with rfl | hd
    · exact ⟨qs, p, rs, hps, rfl⟩
    · refine ih (qs ++ [p]) (by simp [hps]) d ?_
      simpa [encode_append] using hd

/-- Code laid out as placed instructions records one line for each instruction. -/
theorem Places.linesWhole (h : c.Places ps) : c.LinesWhole := by
  intro d hd k hLo hHi hIn
  obtain ⟨qs, p, rs, hps, rfl⟩ := h.mem_starts ps [] rfl d (by simpa using hd)
  rw [h.opSpan_start hps] at hHi
  have hOne : 1 ≤ p.instr.bytes.length := by simp
  rw [h.lineAt_inside hps (by omega) hHi, h.lineAt_inside hps le_rfl (by omega)]

end Places

/-- Every compiled chunk, whether the compile succeeds or not, records one line for each
instruction. -/
theorem compile_linesWhole (src : Bytes) (heap : Heap) (name : String) :
    (compile src heap name).chunk.LinesWhole := by
  obtain ⟨ps, line, hPlaces, -⟩ := compile_placed src heap name
  exact hPlaces.linesWhole

end Chunk

namespace Listing

/-- A row of a listing: the offset of an instruction, its source line (`none` where the row shows
`   |`), the name of its op code, and its operand byte with, for an operand that names a
constant, the text shown for the constant. -/
structure Row where
  offset : Nat
  line : Option Int
  name : String
  operand : Option (UInt8 × Option Bytes)

/-- A row as a line of text: `%04d`, the line in four columns or `   |`, and the name; with an
operand, the name padded to sixteen columns and the operand in four, then the constant's text
in quotes. -/
def Row.text (r : Row) : Bytes :=
  let head := zeroPad r.offset 4 ++ " " ++
    match r.line with
    | some l => padLeft (toString l) 4 ++ " "
    | none => "   | "
  match r.operand with
  | none => Bytes.ofString (head ++ r.name ++ "\n")
  | some (x, none) => Bytes.ofString (head ++ padRight r.name 16 ++ " " ++ padLeft (toString x.toNat) 4 ++ "\n")
  | some (x, some shown) =>
    Bytes.ofString (head ++ padRight r.name 16 ++ " " ++ padLeft (toString x.toNat) 4 ++ " '") ++
      shown ++ Bytes.ofString "'\n"

/-- The text shown for a constant index: the constant's text, or `<invalid>` outside the pool. -/
def shown (c : Chunk) (i : UInt8) : Bytes :=
  match c.constant? i.toNat with
  | some v => v.text
  | none => Bytes.ofString "<invalid>"

/-- The row of the instruction at `d`, showing its line unless `same`. -/
def row (c : Chunk) (d : Nat) (same : Bool) : Row where
  offset := d
  line := if same then none else some (c.lineAt d)
  name := opName (c.code.getD d 0)
  operand :=
    match Op.ofByte? (c.code.getD d 0) with
    | some op =>
      if op.operands = 0 then none
      else c.code[d + 1]?.map fun x => (x, if op.usesConstant then some (shown c x) else none)
    | none => none

/-- Whether the byte just before `d` records the line of `d`. -/
def repeatsByte (c : Chunk) (d : Nat) : Bool := 0 < d && c.lineAt d == c.lineAt ((d : Int) - 1)

/-- The title of a section, set off by an empty line after an earlier section: the name given,
else the chunk's name, else `<script>`. -/
def header (c : Chunk) (name : String) (started : Bool) : Bytes :=
  Bytes.ofString ((if started then "\n" else "") ++ "== " ++
    (if name.isEmpty then (if c.name.isEmpty then "<script>" else c.name) else name) ++ " ==\n")

/-- The rows of a listing as documented: a row shows `   |` when its line is the line of the
instruction before it, `prev`. -/
def documented (c : Chunk) : Option Nat → List Nat → List Bytes
  | _, [] => []
  | prev, d :: ds =>
    (row c d (prev.any fun (p : Nat) => c.lineAt d == c.lineAt (p : Int))).text :: documented c (some d) ds

variable {c : Chunk}

/-- One instruction of a listing: its row, and the walk moves on past it unless it is cut off. -/
theorem instruction_of_lt {d : Nat} (hd : d < c.code.size) :
    instruction c d = ((row c d (repeatsByte c d)).text,
      if c.cutAt d then (d : Int) + 1 else ((d + opSpan (c.code.getD d 0) : Nat) : Int),
      if c.cutAt d then some truncated else none) := by
  have hIn : ((d : Int) < 0 || (d : Int) ≥ c.code.size) = false := by simp; omega
  have hMark : ((d : Int) > 0 && c.lineAt d == c.lineAt ((d : Int) - 1)) = repeatsByte c d := by
    simp [repeatsByte]
  simp only [instruction, hIn, Bool.false_eq_true, if_false, Int.toNat_natCast, hMark]
  rcases hOp : Op.ofByte? (c.code.getD d 0) with _ | op
  · have hNot : ¬ c.code.size < d + 1 := by omega
    cases repeatsByte c d <;> simp only [hOp, row, Row.text, opName, Chunk.cutAt, opSpan] <;> simp [hNot]
  · by_cases hZero : op.operands = 0
    · have hNot : ¬ c.code.size < d + 1 := by omega
      cases repeatsByte c d <;> simp only [hOp, row, Row.text, opName, Chunk.cutAt, opSpan] <;> simp [hZero, hNot]
    · have hOne : op.operands = 1 := by have := op.operands_le_one; omega
      rcases hx : c.code[d + 1]? with _ | x
      · have hCut : c.code.size < d + 2 := by
          rw [Array.getElem?_eq_none_iff] at hx
          omega
        cases repeatsByte c d <;> simp only [hOp, row, Row.text, opName, Chunk.cutAt, opSpan] <;> simp [hOne, hCut, hx]
      · have hNot : ¬ c.code.size < d + 2 := by
          have := (Array.getElem?_eq_some_iff.mp hx).1
          omega
        by_cases hConst : op.usesConstant = true <;> cases repeatsByte c d <;>
          simp only [hOp, row, Row.text, opName, Chunk.cutAt, opSpan, shown] <;> simp [hOne, hNot, hx, hConst] <;>
          rfl

theorem instructionsFrom_eq : ∀ (fuel d : Nat), c.code.size ≤ d + fuel →
    instructionsFrom c fuel d =
      (((c.starts d).map fun e => (row c e (repeatsByte c e)).text).flatten,
        if (c.starts d).any c.cutAt then some truncated else none)
  | 0, d, h => by simp [instructionsFrom, Chunk.starts_of_le (show c.code.size ≤ d by omega)]
  | fuel + 1, d, h => by
    by_cases hd : d < c.code.size
    · have hStep : ¬ (d : Int) ≥ c.code.size := by omega
      simp only [instructionsFrom, hStep, if_false, instruction_of_lt hd]
      by_cases hCut : c.cutAt d = true
      · rw [Chunk.starts_of_cutAt hd hCut]
        simp [hCut]
      · rw [Chunk.starts_of_lt hd]
        simp only [hCut, Bool.false_eq_true, if_false]
        rw [instructionsFrom_eq fuel (d + opSpan (c.code.getD d 0))
          (by have := one_le_opSpan (c.code.getD d 0); omega)]
        simp only [List.map_cons, List.flatten_cons, List.any_cons, hCut, Bool.false_or]
    · simp [instructionsFrom, Chunk.starts_of_le (show c.code.size ≤ d by omega),
        show (d : Int) ≥ c.code.size by omega]

/-- A listing is its header, which names the chunk (or `<script>`) unless a name is given and is
set off by an empty line when a section was written before, then one row for every start of the
walk, each showing `   |` where the byte before it records its line. It ends with an error
exactly when an instruction of the walk is cut off. -/
theorem chunkSection_eq (c : Chunk) (name : String) (started : Bool) :
    chunkSection c name started =
      (header c name started ++ ((c.starts 0).map fun d => (row c d (repeatsByte c d)).text).flatten,
       if (c.starts 0).any c.cutAt then some truncated else none) := by
  have h := instructionsFrom_eq (c := c) c.code.size 0 (by omega)
  simp only [Nat.cast_zero] at h
  simp only [chunkSection, h, header]

/-- A listing fails, with `unexpected end of bytecode`, exactly when an instruction of the walk
names an operand past the end of the code. -/
theorem chunkSection_fails_iff (c : Chunk) (name : String) (started : Bool) :
    (chunkSection c name started).2 = some truncated ↔
      ∃ d ∈ c.starts 0, ∃ op, Op.ofByte? (c.code.getD d 0) = some op ∧
        c.code.size < d + 1 + op.operands := by
  rw [chunkSection_eq, ← Chunk.any_cutAt_iff]
  cases (c.starts 0).any c.cutAt <;> simp

theorem chunkSection_ok_iff (c : Chunk) (name : String) (started : Bool) :
    (chunkSection c name started).2 = none ↔
      ¬ ∃ d ∈ c.starts 0, ∃ op, Op.ofByte? (c.code.getD d 0) = some op ∧
        c.code.size < d + 1 + op.operands := by
  rw [← chunkSection_fails_iff, chunkSection_eq]
  cases (c.starts 0).any c.cutAt <;> simp

/-- Past a start other than the first, the documented rows are the listing's rows. -/
theorem documented_after (hW : c.LinesWhole) (o : Nat) : ∀ p ∈ c.starts 0,
    o = p + opSpan (c.code.getD p 0) →
    documented c (some p) (c.starts o) = (c.starts o).map fun d => (row c d (repeatsByte c d)).text := by
  induction o using Chunk.starts.induct c with
  | case1 o hLt ih =>
    rintro p hp rfl
    have hMark : ((some p).any fun (q : Nat) =>
        c.lineAt ((p + opSpan (c.code.getD p 0) : Nat) : Int) == c.lineAt (q : Int)) =
        repeatsByte c (p + opSpan (c.code.getD p 0)) := by
      have hPos : 0 < p + opSpan (c.code.getD p 0) := by
        have := one_le_opSpan (c.code.getD p 0)
        omega
      rw [repeatsByte, hW.lineAt_before hp hLt]
      simp only [Option.any_some, hPos, decide_true, Bool.true_and]
    rw [Chunk.starts_of_lt hLt, documented, List.map_cons, hMark,
      ih _ (Chunk.next_mem_starts hp hLt) rfl]
  | case2 o hLe =>
    intro p _ _
    rw [Chunk.starts_of_le (Nat.le_of_not_lt hLe)]
    rfl

/-- Where instructions record one line, the documented rows are the listing's rows. -/
theorem documented_eq (hW : c.LinesWhole) :
    documented c none (c.starts 0) = (c.starts 0).map fun d => (row c d (repeatsByte c d)).text := by
  by_cases h0 : 0 < c.code.size
  · have hFirst : 0 ∈ c.starts 0 := by
      rw [Chunk.starts_of_lt h0]
      exact List.mem_cons_self
    rw [Chunk.starts_of_lt h0, documented, List.map_cons, documented_after hW _ 0 hFirst rfl]
    simp [repeatsByte]
  · rw [Chunk.starts_of_le (by omega)]
    rfl

/-- **The listing format.** A listing is its title, then one row for each start of the walk:
the offset, the line or `   |` where the byte before the instruction records its line, the name
(`OP_0x..` for a byte that names no instruction), and the operand with the constant it names,
or `<invalid>`. It fails exactly when an instruction of the walk is cut off. Where every
instruction records one line for all its bytes, `   |` shows exactly when the line repeats the
line of the instruction before it, as documented. -/
theorem chunkSection_follows_walk (c : Chunk) (name : String) (started : Bool) :
    chunkSection c name started =
        (header c name started ++ ((c.starts 0).map fun d => (row c d (repeatsByte c d)).text).flatten,
          if (c.starts 0).any c.cutAt then some truncated else none) ∧
      (c.LinesWhole →
        (chunkSection c name started).1 = header c name started ++ (documented c none (c.starts 0)).flatten) := by
  refine ⟨chunkSection_eq c name started, fun hW => ?_⟩
  rw [chunkSection_eq, documented_eq hW]

/-- A compiled chunk lists as documented. -/
theorem chunkSection_follows_walk_compiled :
    (compile (Bytes.ofString "info true;") Heap.empty "").chunk.LinesWhole ∧
      (chunkSection (compile (Bytes.ofString "info true;") Heap.empty "").chunk "" false).1 =
        header (compile (Bytes.ofString "info true;") Heap.empty "").chunk "" false ++
          (documented (compile (Bytes.ofString "info true;") Heap.empty "").chunk none
            ((compile (Bytes.ofString "info true;") Heap.empty "").chunk.starts 0)).flatten :=
  ⟨Chunk.compile_linesWhole _ _ _,
    (chunkSection_follows_walk _ "" false).2 (Chunk.compile_linesWhole _ _ _)⟩

/-- A chunk whose operand byte records a later line than its op code: the listing marks the next
instruction `   |` by that operand byte, while the documented rule shows its line, which differs
from the line of the instruction before it. -/
theorem mark_follows_operand_byte :
    ¬ ∀ (c : Chunk) (name : String) (started : Bool),
      (chunkSection c name started).1 = header c name started ++ (documented c none (c.starts 0)).flatten := by
  intro h
  have hClaim := h ⟨"t", #[0, 0, 1], #[1, 2, 2], #[.nil]⟩ "" false
  have hStarts : Chunk.starts ⟨"t", #[0, 0, 1], #[1, 2, 2], #[.nil]⟩ 0 = [0, 2] := by
    rw [Chunk.starts_of_lt (by decide), Chunk.starts_of_lt (by decide), Chunk.starts_of_le (by decide)]
    rfl
  rw [hStarts] at hClaim
  revert hClaim
  decide +kernel

end Listing

end StackScript
