import StackScript.Proofs.Machine.Straight
import StackScript.Proofs.Compiler.StackMap

/-! # Runs of checked chunks

A chunk is checked against instructions `ins` (`Chunk.Checked`) when its code reads as them,
they run from an empty stack on the values they find, every constant operand names a constant of
the pool (a string for the global instructions), and none addresses a stack slot. A machine on
such a chunk is typed when its offset and its depth are a point of the stack map of `ins`.

From a typed machine, a dispatch that goes on leads to a typed machine, and a dispatch that fails
does so for a reason of the values, of the settings or of the room on the stack, never for a byte
that names no instruction, an operand that is missing or names nothing, or too few values
(`Typed.step`). A run from any machine is typed all along, and it passes every offset of the map
on its way to the offset it reaches (`Reaches.passes`).
-/

namespace StackScript

set_option autoImplicit false

/-- The code of `c` reads as the instructions `ins`, which run from an empty stack on the values
they find, name constants of the pool (a string for a global) and address no stack slot. -/
structure Chunk.Checked (c : Chunk) (ins : List Instr) : Prop where
  code : c.code.toList = encode ins
  balanced : Balanced ins 0
  operands : ∀ x ∈ ins, x.op.usesConstant = true → ∀ b ∈ x.operand,
    ∃ v, c.constants[b.toNat]? = some v ∧ (x.op ≠ .constant → ∃ str, v = .obj (.str str))
  slots : ∀ x ∈ ins, x.op.addressesSlot = false

namespace Machine

variable {c : Chunk} {m s s' : Machine}

theorem readConstant_of_some {v : Value} (h : c.constants[(c.code.getD m.ip 0).toNat]? = some v) :
    m.readConstant c = ({ m with ip := m.ip + 1 }, .ok v) := by
  have hNonneg : ¬ (((c.code.getD m.ip 0).toNat : Nat) : Int) < 0 := by omega
  simp only [readConstant, operand, Chunk.constant?, if_neg hNonneg, Int.toNat_natCast, h]

theorem readName_of_str {str : Str}
    (h : c.constants[(c.code.getD m.ip 0).toNat]? = some (.obj (.str str))) :
    m.readName c = ({ m with ip := m.ip + 1 }, .ok str) := by
  simp [readName, readConstant_of_some h, Value.asStr?]

/-- An instruction that addresses no slot, with its constant operand naming a constant (a string
for a global), fails only on the values it finds or on the output. -/
theorem execute_fault_kind {op : Op} {f : Fault} (hSlot : op.addressesSlot = false)
    (hOperand : op.usesConstant = true → ∃ v, c.constants[(c.code.getD m.ip 0).toNat]? = some v ∧
      (op ≠ .constant → ∃ str, v = .obj (.str str)))
    (h : (m.execute c op).2 = .fault f) :
    f.kind = .typeMismatch ∨ f.kind = .undefinedVariable ∨ f.kind = .outputFailure := by
  cases op <;> simp only [Op.addressesSlot, reduceCtorEq] at hSlot
  case constant =>
    obtain ⟨v, hv, -⟩ := hOperand rfl
    simp [execute, readConstant_of_some hv] at h
  case getGlobal | setGlobal | defineGlobal =>
    obtain ⟨v, hv, hStr⟩ := hOperand rfl
    obtain ⟨str, rfl⟩ := hStr (by decide)
    simp only [execute, readName_of_str hv] at h
    (try split at h) <;> simp only [Outcome.fault.injEq, reduceCtorEq] at h <;>
      subst h <;> simp [undefined, fault]
  -- the other instructions read no operand: each fault is written out in their bodies
  all_goals simp only [execute] at h
  all_goals (try split at h) <;> simp only [Outcome.fault.injEq, reduceCtorEq] at h
  all_goals subst h; simp [fault]

/-- A dispatch of an instruction that addresses no slot, with its operand in the code and naming
a constant (a string for a global), on a stack that holds what the instruction takes, fails only
on the instruction limit, on the values it finds, on the output, or on a stack that has no room
for what it leaves. -/
theorem step_fault_kind {x : Instr} {f : Fault} (hCode : CodeAt c s.ip x.bytes)
    (hPops : x.op.pops ≤ s.stack.size) (hSlot : x.op.addressesSlot = false)
    (hOperand : x.op.usesConstant = true → ∃ v, c.constants[(c.code.getD (s.ip + 1) 0).toNat]? = some v ∧
      (x.op ≠ .constant → ∃ str, v = .obj (.str str)))
    (h : s.step c = (s', .fault f)) :
    f.kind = .instructionLimit ∨ f.kind = .typeMismatch ∨ f.kind = .undefinedVariable ∨
      f.kind = .outputFailure ∨ (f.kind = .stackOverflow ∧ s.stackMax < x.after s.stack.size) := by
  have hSize := hCode.size_le
  rw [x.length_operand] at hSize
  have hByte : Op.ofByte? (c.code.getD s.ip 0) = some x.op := by rw [hCode.getD, Op.ofByte?_code]
  rcases step_cases h with ⟨hEnd, -⟩ | ⟨-, -, f', hf, hStops, -⟩ | ⟨-, op, hP, hExec⟩
  · omega
  · -- the opcode is known and its operand is in the code: past the limit, the stack is the one check
    cases hf
    generalize f.kind = k at hStops ⊢
    cases hStops with
    | limit => exact .inl rfl
    | opcode hNone => rw [hByte] at hNone; cases hNone
    | operand hOp hLt => rw [hByte] at hOp; cases hOp; omega
    | underflow hOp hLt => rw [hByte] at hOp; cases hOp; omega
    | overflow hOp hGt =>
      rw [hByte] at hOp
      cases hOp
      exact .inr (.inr (.inr (.inr ⟨rfl, by simp only [Instr.after]; omega⟩)))
  · obtain rfl : op = x.op := Option.some.inj (hP.opcode.symm.trans hByte)
    have hIp : (s.dispatch c).ip = s.ip + 1 := dispatch_ip s c
    rcases execute_fault_kind hSlot (by rwa [hIp]) (congrArg Prod.snd hExec) with h | h | h <;> simp [h]

/-- A machine whose offset and depth are a point of the stack map of `ins`. -/
def Typed (ins : List Instr) (s : Machine) : Prop := (s.ip, s.stack.size) ∈ stackMap ins 0 0

theorem typed_reset (ins : List Instr) (m : Machine) : Typed ins m.reset :=
  start_mem_stackMap ins 0 0

theorem Reaches.stackMax_eq {n : Nat} (h : Reaches c s n s') : s'.stackMax = s.stackMax := by
  induction h with
  | refl => rfl
  | step hStep _ ih =>
    obtain ⟨-, -, -, -, -, -, -, -, hMax, -⟩ := step_completes hStep rfl (ip_lt_of_proceed hStep)
    rw [ih, hMax]

/-- A run that ends with a runtime error dispatched the failing instruction from a machine the
run reached. -/
theorem run_fault {f : Fault} (h : (m.run c).2 = some f) :
    ∃ n s s', Reaches c m.reset n s ∧ s.step c = (s', .fault f) := by
  obtain ⟨n, last, hReach, hFinish⟩ := runFor_ends (c := c) (c.code.size + 1) m.reset
    (by simp [reset]) (by simp [reset])
  rcases hStep : last.step c with ⟨s', o⟩
  unfold finish at hFinish
  rw [hStep] at hFinish
  simp only [run, start] at h
  cases o with
  | fault f' =>
    simp only [Option.some.injEq] at hFinish
    rw [← hFinish] at h
    cases h
    exact ⟨n, last, s', hReach, hStep⟩
  | proceed => cases hFinish
  | halt | pause =>
    simp only [Option.some.injEq] at hFinish
    rw [← hFinish] at h
    cases h

end Machine

namespace Chunk.Checked

open Machine

variable {c : Chunk} {s s' : Machine} {ins : List Instr} (hC : c.Checked ins)
include hC

theorem size_eq : c.code.size = (encode ins).length := by
  rw [← Array.length_toList, hC.code]

/-- Inside the code, a typed machine stands at an instruction of `ins` with the depth the
instructions before it leave. -/
theorem instr_at (hT : Typed ins s) (hIn : s.ip < c.code.size) :
    ∃ ys x zs, ins = ys ++ x :: zs ∧ s.ip = (encode ys).length ∧
      s.stack.size = depthAfter ys 0 ∧ CodeAt c s.ip x.bytes := by
  obtain ⟨ys, x, zs, hIns, hIp, hDepth⟩ := mem_stackMap_split hT (by rw [← hC.size_eq]; omega)
  rw [Nat.zero_add] at hIp
  refine ⟨ys, x, zs, hIns, hIp, hDepth, encode zs, ?_⟩
  rw [hC.code, hIns, hIp, encode_append, encode_cons, List.drop_left]

/-- The instruction a typed machine stands at can be fed from the stack. -/
theorem pops_le {ys zs : List Instr} {x : Instr} (hIns : ins = ys ++ x :: zs) :
    x.op.pops ≤ depthAfter ys 0 := by
  have hBal := hC.balanced
  rw [hIns, balanced_append, balanced_cons] at hBal
  exact hBal.2.1

/-- The operand of an instruction at an offset names a constant of the pool, a string for a
global. -/
theorem operand_at {ys zs : List Instr} {x : Instr} (hIns : ins = ys ++ x :: zs) {ip : Nat}
    (hCode : CodeAt c ip x.bytes) :
    x.op.usesConstant = true → ∃ v, c.constants[(c.code.getD (ip + 1) 0).toNat]? = some v ∧
      (x.op ≠ .constant → ∃ str, v = .obj (.str str)) := by
  intro hUses
  have hOne := (Op.inDeclaration_of_usesConstant hUses).2
  obtain ⟨x, operand, hLen⟩ := x
  -- the one operand byte follows the opcode
  obtain ⟨b, rfl⟩ : ∃ b, operand = [b] := by
    rw [hOne] at hLen
    exact List.length_eq_one_iff.mp hLen
  have hSplit : CodeAt c ip ([x.code] ++ [b]) := hCode
  have hByte : c.code.getD (ip + 1) 0 = b := hSplit.right.getD
  rw [hByte]
  exact hC.operands _ (by rw [hIns]; simp) hUses b (List.mem_singleton_self b)

/-- A dispatch from a typed machine that does not fail moves past one instruction of `ins`,
leaving the depth that instruction leaves. -/
theorem step_next (hT : Typed ins s) {o : Outcome} (h : s.step c = (s', o)) (hFault : o.isFault = false)
    (hIn : s.ip < c.code.size) :
    ∃ ys x zs, ins = ys ++ x :: zs ∧ s.ip = (encode ys).length ∧ s.stack.size = depthAfter ys 0 ∧
      s'.ip = s.ip + x.bytes.length ∧ s'.stack.size = x.after s.stack.size := by
  obtain ⟨ys, x, zs, hIns, hIp, hDepth, hCode⟩ := hC.instr_at hT hIn
  obtain ⟨b, op, hb, hOp, -, hPops, hNext, hSize, -, -⟩ := step_completes h hFault hIn
  -- the byte at the offset is the opcode of `x`
  have hb' : b = x.op.code := by
    rw [hCode.getElem?] at hb
    exact (Option.some.inj hb).symm
  have hOp' : op = x.op := by
    rw [hb', Op.ofByte?_code] at hOp
    exact (Option.some.inj hOp).symm
  subst hOp'
  refine ⟨ys, x, zs, hIns, hIp, hDepth, by rw [hNext, Instr.length_bytes]; omega, ?_⟩
  simp only [Instr.after]
  omega

theorem typed_step (hT : Typed ins s) {o : Outcome} (h : s.step c = (s', o)) (hFault : o.isFault = false)
    (hIn : s.ip < c.code.size) : Typed ins s' := by
  obtain ⟨ys, x, zs, hIns, hIp, hDepth, hNextIp, hNextSize⟩ := hC.step_next hT h hFault hIn
  have hMem : ((encode ys).length + x.bytes.length, x.after (depthAfter ys 0)) ∈
      stackMap (ys ++ x :: zs) 0 0 := by
    simpa only [Nat.zero_add] using mem_stackMap_next (o := 0) (d := 0)
  rw [← hIp, ← hDepth, ← hNextIp, ← hNextSize, ← hIns] at hMem
  exact hMem

/-- Every machine a run from a typed machine reaches is typed. -/
theorem reaches_typed {n : Nat} (h : Reaches c s n s') (hT : Typed ins s) : Typed ins s' := by
  induction h with
  | refl => exact hT
  | step hStep _ ih => exact ih (hC.typed_step hT hStep rfl (ip_lt_of_proceed hStep))

/-- A run from a typed machine passes every offset of the map between its start and its end,
with the depth the map gives there. -/
theorem passes {n : Nat} (h : Reaches c s n s') (hT : Typed ins s) {q : Nat × Nat}
    (hq : q ∈ stackMap ins 0 0) (hLo : s.ip ≤ q.1) (hHi : q.1 ≤ s'.ip) :
    ∃ k t, Reaches c s k t ∧ t.ip = q.1 ∧ t.stack.size = q.2 := by
  induction h with
  | refl s =>
    have hAt : s.ip = q.1 := by omega
    refine ⟨0, s, .refl s, hAt, stackMap_depth_unique hT (by rw [hAt]; exact hq)⟩
  | step hStep hRest ih =>
    rename_i s s₁ s₂ n
    by_cases hAt : s.ip = q.1
    · exact ⟨0, s, .refl s, hAt, stackMap_depth_unique hT (by rw [hAt]; exact hq)⟩
    -- the next instruction ends at or before the offset
    obtain ⟨ys, x, zs, hIns, hIp, -, hNextIp, -⟩ :=
      hC.step_next hT hStep rfl (ip_lt_of_proceed hStep)
    have hGap := stackMap_gap (o := 0) (d := 0) (hIns ▸ hq) (by omega)
    obtain ⟨k, t, hk, htIp, htSize⟩ :=
      ih (hC.typed_step hT hStep rfl (ip_lt_of_proceed hStep)) (by omega) hHi
    exact ⟨k + 1, t, .step hStep hk, htIp, htSize⟩

/-- A dispatch from a typed machine fails only on the instruction limit, on the values it finds,
on the output, or on a stack that has no room for the depth at the next offset of the map. -/
theorem fault_kinds {f : Fault} (hT : Typed ins s) (h : s.step c = (s', .fault f)) :
    f.kind = .instructionLimit ∨ f.kind = .typeMismatch ∨ f.kind = .undefinedVariable ∨
      f.kind = .outputFailure ∨
      (f.kind = .stackOverflow ∧ ∃ q ∈ stackMap ins 0 0, s.ip < q.1 ∧
        (∀ q' ∈ stackMap ins 0 0, s.ip < q'.1 → q.1 ≤ q'.1) ∧ s.stackMax < q.2) := by
  obtain ⟨ys, x, zs, hIns, hIp, hDepth, hCode⟩ := hC.instr_at hT (step_fault h).1
  have hSlot := hC.slots x (by rw [hIns]; simp)
  rcases step_fault_kind hCode (hDepth ▸ hC.pops_le hIns) hSlot (hC.operand_at hIns hCode) h with
    h | h | h | h | ⟨hKind, hRoom⟩
  · exact .inl h
  · exact .inr (.inl h)
  · exact .inr (.inr (.inl h))
  · exact .inr (.inr (.inr (.inl h)))
  -- the point after the instruction is the next one of the map
  refine .inr (.inr (.inr (.inr ⟨hKind, _, hIns ▸ mem_stackMap_next (o := 0) (d := 0), ?_, ?_, ?_⟩)))
  · simp only [Instr.length_bytes]
    omega
  · intro q' hq' hLt
    have := stackMap_gap (o := 0) (d := 0) (hIns ▸ hq') (by omega)
    omega
  · rwa [← hDepth]

end Chunk.Checked

/-! ## Segments of the code

Code is cut into a part before, a segment and a part after. A run from the start has, at the
segment's ends and in between, the depths the segment's own map gives from the depth the part
before leaves.
-/

namespace Chunk.Checked

open Machine

variable {c : Chunk} {m s s' : Machine} {xs ys zs : List Instr}

/-- A run from the start has, where a part of the code ends, the depth that part leaves. -/
theorem depth_at (hC : c.Checked (xs ++ zs)) {k : Nat} (hR : Reaches c m.reset k s)
    (hAt : s.ip = (encode xs).length) : s.stack.size = depthAfter xs 0 := by
  have hT := hC.reaches_typed hR (typed_reset _ m)
  have hEnd : ((encode xs).length, depthAfter xs 0) ∈ stackMap (xs ++ zs) 0 0 := by
    have := end_mem_stackMap xs 0 0
    rw [Nat.zero_add] at this
    exact mem_stackMap_append.mpr (.inl this)
  unfold Typed at hT
  rw [hAt] at hT
  exact stackMap_depth_unique hT hEnd

section Segment

variable {n : Nat} (hC : c.Checked (xs ++ ys ++ zs)) (hPre : depthAfter xs 0 = 0)
  (hP : Profile ys 0 0 n)
include hPre

theorem mem_segment {q : Nat × Nat} (hq : q ∈ stackMap (xs ++ ys ++ zs) 0 0)
    (hLo : (encode xs).length ≤ q.1) (hHi : q.1 ≤ (encode xs).length + (encode ys).length) :
    q ∈ stackMap ys (encode xs).length 0 := by
  have := mem_stackMap_middle hq (by omega) (by omega)
  rwa [Nat.zero_add, hPre] at this

include hC hP

/-- A run from the start holds at most the segment's peak while it is inside the segment. -/
theorem depth_le {k : Nat} (hR : Reaches c m.reset k s) (hLo : (encode xs).length ≤ s.ip)
    (hHi : s.ip ≤ (encode xs).length + (encode ys).length) : s.stack.size ≤ n := by
  have hT := hC.reaches_typed hR (typed_reset _ m)
  have hIn := mem_segment hPre hT hLo hHi
  have := hP.bounded _ 0 _ (by rw [Nat.zero_add]; exact hIn)
  omega

/-- A run from the start that gets past the segment reached the segment's peak inside it. -/
theorem peak_reached {k : Nat} (hR : Reaches c m.reset k s)
    (hAt : s.ip = (encode xs).length + (encode ys).length) :
    ∃ k' t, Reaches c m.reset k' t ∧ (encode xs).length ≤ t.ip ∧
      t.ip ≤ (encode xs).length + (encode ys).length ∧ t.stack.size = n := by
  obtain ⟨o, hp⟩ := hP.peak (encode xs).length 0
  rw [Nat.zero_add, Nat.zero_add] at hp
  have hBounds := mem_stackMap_bounds hp
  have hIn : (o, n) ∈ stackMap (xs ++ ys ++ zs) 0 0 :=
    mem_stackMap_of_middle (by rwa [Nat.zero_add, hPre])
  obtain ⟨k', t, hk, hIp, hSize⟩ :=
    hC.passes hR (typed_reset _ m) hIn (by simp [reset]) (by omega)
  exact ⟨k', t, hk, by omega, by omega, hSize⟩

/-- A run from the start overflows inside the segment only on a machine whose limit is below
the segment's peak. -/
theorem overflow_lt {k : Nat} {f : Fault} (hR : Reaches c m.reset k s)
    (hLo : (encode xs).length ≤ s.ip) (hHi : s.ip < (encode xs).length + (encode ys).length)
    (h : s.step c = (s', .fault f)) (hKind : f.kind = .stackOverflow) : m.stackMax < n := by
  have hT := hC.reaches_typed hR (typed_reset _ m)
  rcases hC.fault_kinds hT h with h | h | h | h | ⟨-, q, hq, hLt, hFirst, hRoom⟩
  all_goals try (rw [hKind] at h; cases h)
  -- the next offset of the map is at most the segment's end, so its depth is at most the peak
  have hEnd : ((encode xs).length + (encode ys).length, depthAfter ys 0) ∈
      stackMap (xs ++ ys ++ zs) 0 0 :=
    mem_stackMap_of_middle (by rw [Nat.zero_add, hPre]; exact end_mem_stackMap ys _ _)
  have hNext := hFirst _ hEnd hHi
  have hIn := mem_segment hPre hq (by omega) hNext
  have hBound := hP.bounded _ 0 q (by rw [Nat.zero_add]; exact hIn)
  have hMax : s.stackMax = m.stackMax := by
    rw [hR.stackMax_eq]
    rfl
  omega

end Segment

end Chunk.Checked

end StackScript
