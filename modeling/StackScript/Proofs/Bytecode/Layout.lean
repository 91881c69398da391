import Mathlib
import StackScript.Bytecode.Chunk

/-! # Code as whole instructions

Code is read from its first byte as a sequence of instructions, each an op code that names an
instruction followed by exactly its operand bytes (`decode`); code made of whole instructions
reads back as them (`decode_encode`). A placed instruction also carries the source line that each
of its bytes records, so the lines of a chunk are those of its instructions, byte by byte.

Along whole instructions the depth of the stack is known without running them, since each
instruction takes `pops` values and leaves `pushes` in their place. `stackMap` pairs the offset of
each instruction, and of the end, with the depth there, from a starting offset and depth;
`Balanced` says that no instruction takes more values than the depth before it holds.
-/

namespace StackScript

set_option autoImplicit false

theorem Op.ofByte?_code (op : Op) : Op.ofByte? op.code = some op := by
  cases op <;> rfl

theorem Op.operands_le_one (op : Op) : op.operands ≤ 1 := by
  cases op <;> decide

/-- An instruction as code holds it: an operation and exactly its operand bytes. -/
structure Instr where
  op : Op
  operand : List UInt8
  length_operand : operand.length = op.operands

namespace Instr

/-- The code bytes of an instruction. -/
def bytes (x : Instr) : List UInt8 := x.op.code :: x.operand

@[simp] theorem length_bytes (x : Instr) : x.bytes.length = x.op.operands + 1 := by
  simp [bytes, x.length_operand]

/-- The depth of the stack after an instruction, from the depth `d` before it. -/
def after (x : Instr) (d : Nat) : Nat := d - x.op.pops + x.op.pushes

end Instr

/-! ## Reading code -/

/-- The code of a sequence of instructions. -/
def encode (xs : List Instr) : List UInt8 := xs.flatMap Instr.bytes

@[simp] theorem encode_nil : encode [] = [] := rfl

@[simp] theorem encode_cons (x : Instr) (xs : List Instr) : encode (x :: xs) = x.bytes ++ encode xs :=
  rfl

@[simp] theorem encode_append (xs ys : List Instr) : encode (xs ++ ys) = encode xs ++ encode ys :=
  List.flatMap_append

/-- Reads code from its first byte as whole instructions: `none` at a byte that names no
instruction, or at an operand that the end of the code cuts off. -/
def decode : List UInt8 → Option (List Instr)
  | [] => some []
  | b :: rest =>
    match Op.ofByte? b with
    | none => none
    | some op =>
      if h : op.operands = 0 then (decode rest).map (⟨op, [], h.symm⟩ :: ·)
      else
        match rest with
        | [] => none
        | x :: rest =>
          (decode rest).map (⟨op, [x], by have := op.operands_le_one; simp only [List.length_singleton]; omega⟩ :: ·)

theorem decode_encode : ∀ xs : List Instr, decode (encode xs) = some xs
  | [] => rfl
  | ⟨op, operand, hLen⟩ :: xs => by
    have ih := decode_encode xs
    -- An operand is empty or one byte, as the instruction says.
    match operand, hLen with
    | [], hLen =>
      simp [encode_cons, Instr.bytes, decode, Op.ofByte?_code, ← hLen, ih]
    | [b], hLen =>
      have hOne : op.operands ≠ 0 := by simp at hLen; omega
      simp [encode_cons, Instr.bytes, decode, Op.ofByte?_code, hOne, ih]
    | _ :: _ :: _, hLen =>
      have := op.operands_le_one
      simp at hLen
      omega

/-- Code is read as whole instructions in one way only. -/
theorem encode_injective {xs ys : List Instr} (h : encode xs = encode ys) : xs = ys := by
  have hDecode := decode_encode xs
  rw [h, decode_encode ys] at hDecode
  exact (Option.some.inj hDecode).symm

/-! ## Lines -/

/-- An instruction placed in a chunk, with the source line that each of its bytes records. -/
structure Placed where
  instr : Instr
  line : Nat

/-- The lines a placed instruction records, one for each of its bytes. -/
def Placed.lines (p : Placed) : List Int := List.replicate p.instr.bytes.length p.line

theorem length_flatMap_lines (ps : List Placed) :
    (ps.flatMap Placed.lines).length = (encode (ps.map Placed.instr)).length := by
  induction ps with
  | nil => rfl
  | cons p ps ih => simp [Placed.lines, ih, encode_cons]

theorem mem_flatMap_lines {ps : List Placed} {l : Int} (h : l ∈ ps.flatMap Placed.lines) :
    ∃ p ∈ ps, l = p.line := by
  obtain ⟨p, hp, hl⟩ := List.mem_flatMap.mp h
  exact ⟨p, hp, List.eq_of_mem_replicate hl⟩

/-- Instructions placed at lines that never go back record lines that never go back. -/
theorem pairwise_flatMap_lines {ps : List Placed} (h : (ps.map Placed.line).Pairwise (· ≤ ·)) :
    (ps.flatMap Placed.lines).Pairwise (· ≤ ·) := by
  induction ps with
  | nil => exact List.Pairwise.nil
  | cons p ps ih =>
    rw [List.map_cons, List.pairwise_cons] at h
    rw [List.flatMap_cons, List.pairwise_append]
    refine ⟨List.pairwise_replicate.mpr (Or.inr le_rfl), ih h.2, ?_⟩
    intro a ha b hb
    obtain ⟨q, hq, rfl⟩ := mem_flatMap_lines hb
    rw [List.eq_of_mem_replicate ha]
    exact Int.ofNat_le.mpr (h.1 _ (List.mem_map_of_mem hq))

/-- The code and the lines of `c` are exactly those of the placed instructions `ps`. -/
structure Chunk.Places (c : Chunk) (ps : List Placed) : Prop where
  code : c.code.toList = encode (ps.map Placed.instr)
  lines : c.lines.toList = ps.flatMap Placed.lines

theorem Chunk.Places.size_eq {c : Chunk} {ps : List Placed} (h : c.Places ps) :
    c.code.size = c.lines.size := by
  rw [← Array.length_toList, ← Array.length_toList, h.code, h.lines, length_flatMap_lines]

/-! ## The depth of the stack -/

/-- The depth after a sequence of instructions, from the depth `d` before them. -/
def depthAfter (xs : List Instr) (d : Nat) : Nat := xs.foldl (fun d x => x.after d) d

@[simp] theorem depthAfter_nil (d : Nat) : depthAfter [] d = d := rfl

@[simp] theorem depthAfter_cons (x : Instr) (xs : List Instr) (d : Nat) :
    depthAfter (x :: xs) d = depthAfter xs (x.after d) := rfl

@[simp] theorem depthAfter_append (xs ys : List Instr) (d : Nat) :
    depthAfter (xs ++ ys) d = depthAfter ys (depthAfter xs d) :=
  List.foldl_append

/-- No instruction takes more values than the depth before it holds. -/
def Balanced : List Instr → Nat → Prop
  | [], _ => True
  | x :: xs, d => x.op.pops ≤ d ∧ Balanced xs (x.after d)

@[simp] theorem balanced_nil (d : Nat) : Balanced [] d := trivial

@[simp] theorem balanced_cons (x : Instr) (xs : List Instr) (d : Nat) :
    Balanced (x :: xs) d ↔ x.op.pops ≤ d ∧ Balanced xs (x.after d) := Iff.rfl

theorem balanced_append {xs ys : List Instr} {d : Nat} :
    Balanced (xs ++ ys) d ↔ Balanced xs d ∧ Balanced ys (depthAfter xs d) := by
  induction xs generalizing d with
  | nil => simp
  | cons x xs ih => simp [ih, and_assoc]

/-- The offset of each instruction and of the end, with the depth of the stack there, from the
offset `o` and the depth `d` at the start. -/
def stackMap : List Instr → Nat → Nat → List (Nat × Nat)
  | [], o, d => [(o, d)]
  | x :: xs, o, d => (o, d) :: stackMap xs (o + x.bytes.length) (x.after d)

@[simp] theorem stackMap_nil (o d : Nat) : stackMap [] o d = [(o, d)] := rfl

@[simp] theorem stackMap_cons (x : Instr) (xs : List Instr) (o d : Nat) :
    stackMap (x :: xs) o d = (o, d) :: stackMap xs (o + x.bytes.length) (x.after d) := rfl

theorem start_mem_stackMap (xs : List Instr) (o d : Nat) : (o, d) ∈ stackMap xs o d := by
  cases xs <;> simp

theorem end_mem_stackMap (xs : List Instr) (o d : Nat) :
    (o + (encode xs).length, depthAfter xs d) ∈ stackMap xs o d := by
  induction xs generalizing o d with
  | nil => simp
  | cons x xs ih =>
    have := ih (o + x.bytes.length) (x.after d)
    simp only [encode_cons, List.length_append, depthAfter_cons, ← Nat.add_assoc] at this ⊢
    exact List.mem_cons_of_mem _ this

theorem mem_stackMap_append {xs ys : List Instr} {o d : Nat} {p : Nat × Nat} :
    p ∈ stackMap (xs ++ ys) o d ↔
      p ∈ stackMap xs o d ∨ p ∈ stackMap ys (o + (encode xs).length) (depthAfter xs d) := by
  induction xs generalizing o d with
  | nil =>
    simp only [List.nil_append, encode_nil, List.length_nil, Nat.add_zero, depthAfter_nil, stackMap_nil,
      List.mem_singleton]
    constructor
    · exact Or.inr
    · rintro (rfl | h)
      · exact start_mem_stackMap ys _ _
      · exact h
  | cons x xs ih =>
    simp only [List.cons_append, stackMap_cons, List.mem_cons, ih, encode_cons, List.length_append,
      depthAfter_cons, Nat.add_assoc, or_assoc]

/-- Every offset of the map lies between the start and the end of the code. -/
theorem mem_stackMap_bounds {xs : List Instr} {o d o' d' : Nat} (h : (o', d') ∈ stackMap xs o d) :
    o ≤ o' ∧ o' ≤ o + (encode xs).length := by
  induction xs generalizing o d with
  | nil =>
    simp only [stackMap_nil, List.mem_singleton, Prod.mk.injEq] at h
    omega
  | cons x xs ih =>
    simp only [stackMap_cons, List.mem_cons, Prod.mk.injEq] at h
    rcases h with ⟨rfl, rfl⟩ | h
    · omega
    · have := ih h
      simp only [encode_cons, List.length_append] at this ⊢
      omega

/-- An offset of the map before the end is where an instruction starts: the instructions before
it bring the stack to the depth the map gives there. -/
theorem mem_stackMap_split {xs : List Instr} {o d o' d' : Nat} (h : (o', d') ∈ stackMap xs o d)
    (hLt : o' < o + (encode xs).length) :
    ∃ ys x zs, xs = ys ++ x :: zs ∧ o' = o + (encode ys).length ∧ d' = depthAfter ys d := by
  induction xs generalizing o d with
  | nil =>
    simp only [stackMap_nil, List.mem_singleton, Prod.mk.injEq, encode_nil, List.length_nil] at h hLt
    omega
  | cons x xs ih =>
    simp only [stackMap_cons, List.mem_cons, Prod.mk.injEq] at h
    rcases h with ⟨rfl, rfl⟩ | h
    · exact ⟨[], x, xs, rfl, by simp, rfl⟩
    · simp only [encode_cons, List.length_append] at hLt
      obtain ⟨ys, y, zs, rfl, rfl, rfl⟩ := ih h (by omega)
      exact ⟨x :: ys, y, zs, rfl, by simp [Nat.add_assoc], rfl⟩

/-- The map gives one depth at each offset. -/
theorem stackMap_depth_unique {xs : List Instr} {o d o' d₁ d₂ : Nat} (h₁ : (o', d₁) ∈ stackMap xs o d)
    (h₂ : (o', d₂) ∈ stackMap xs o d) : d₁ = d₂ := by
  induction xs generalizing o d with
  | nil =>
    simp only [stackMap_nil, List.mem_singleton, Prod.mk.injEq] at h₁ h₂
    omega
  | cons x xs ih =>
    simp only [stackMap_cons, List.mem_cons, Prod.mk.injEq] at h₁ h₂
    -- The head's offset lies before every offset of the tail.
    have hAfter : ∀ {e}, (o', e) ∈ stackMap xs (o + x.bytes.length) (x.after d) → o < o' := by
      intro e he
      have := (mem_stackMap_bounds he).1
      simp only [Instr.length_bytes] at this
      omega
    rcases h₁ with ⟨rfl, rfl⟩ | h₁ <;> rcases h₂ with ⟨hEq, rfl⟩ | h₂
    · rfl
    · exact absurd (hAfter h₂) (Nat.lt_irrefl _)
    · exact absurd (hAfter h₁) (by omega)
    · exact ih h₁ h₂

/-- The map holds the end of each instruction with the depth the instruction leaves. -/
theorem mem_stackMap_next {ys zs : List Instr} {x : Instr} {o d : Nat} :
    (o + (encode ys).length + x.bytes.length, (x.after (depthAfter ys d))) ∈
      stackMap (ys ++ x :: zs) o d := by
  rw [mem_stackMap_append]
  refine Or.inr ?_
  simp only [stackMap_cons, List.mem_cons]
  exact Or.inr (start_mem_stackMap zs _ _)

/-- Every offset of the map after an instruction's start is at or past the instruction's end. -/
theorem stackMap_gap {ys zs : List Instr} {x : Instr} {o d : Nat} {q : Nat × Nat}
    (hq : q ∈ stackMap (ys ++ x :: zs) o d) (hLt : o + (encode ys).length < q.1) :
    o + (encode ys).length + x.bytes.length ≤ q.1 := by
  rcases mem_stackMap_append.mp hq with hq | hq
  · have := (mem_stackMap_bounds hq).2
    omega
  · simp only [stackMap_cons, List.mem_cons] at hq
    rcases hq with rfl | hq
    · exact absurd hLt (Nat.lt_irrefl _)
    · exact (mem_stackMap_bounds hq).1

theorem mem_stackMap_of_middle {xs ys zs : List Instr} {o d : Nat} {p : Nat × Nat}
    (hp : p ∈ stackMap ys (o + (encode xs).length) (depthAfter xs d)) :
    p ∈ stackMap (xs ++ ys ++ zs) o d :=
  mem_stackMap_append.mpr (.inl (mem_stackMap_append.mpr (.inr hp)))

/-- A point of the map between the start and the end of a middle part of the code is a point of
that part's own map, started at its offset and at the depth the code before it leaves. -/
theorem mem_stackMap_middle {xs ys zs : List Instr} {o d : Nat} {p : Nat × Nat}
    (hp : p ∈ stackMap (xs ++ ys ++ zs) o d) (hLo : o + (encode xs).length ≤ p.1)
    (hHi : p.1 ≤ o + (encode xs).length + (encode ys).length) :
    p ∈ stackMap ys (o + (encode xs).length) (depthAfter xs d) := by
  obtain ⟨o', d'⟩ := p
  simp only at hLo hHi
  rcases mem_stackMap_append.mp hp with hp | hp
  · rcases mem_stackMap_append.mp hp with hp | hp
    · -- a point of the code before meets the middle part only at its start
      have hAt : o' = o + (encode xs).length := by
        have := (mem_stackMap_bounds hp).2
        omega
      subst hAt
      rw [stackMap_depth_unique hp (end_mem_stackMap xs o d)]
      exact start_mem_stackMap ys _ _
    · exact hp
  · -- a point of the code after meets the middle part only at its end
    have hAt : o' = o + (encode xs).length + (encode ys).length := by
      have := (mem_stackMap_bounds hp).1
      simp only [encode_append, List.length_append] at this
      omega
    subst hAt
    have hStart := start_mem_stackMap zs (o + (encode (xs ++ ys)).length) (depthAfter (xs ++ ys) d)
    simp only [encode_append, List.length_append, ← Nat.add_assoc] at hp hStart
    rw [stackMap_depth_unique hp hStart, depthAfter_append]
    exact end_mem_stackMap ys _ _

end StackScript
