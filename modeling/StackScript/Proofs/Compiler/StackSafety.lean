import StackScript.Proofs.Machine.Checked

/-! # Compiled chunks are well formed and stack-safe

Every compile, also one that fails, records one line per code byte, the lines never go back,
and each is a line of the source (`compile_lines`). A compile that succeeds leaves the
instructions of the derivation's code followed by the only return, and the chunk is checked
against them (`compile_checked`). A run of it then fails only on the instruction limit, the
values, the output or the room on the stack, and along each statement's code the stack holds
from none to the statement's need and reaches it (`compile_stack_safe`).
-/

namespace StackScript

set_option autoImplicit false

open Compiler Machine

theorem Op.addressesSlot_of_inDeclaration {op : Op} (h : op.inDeclaration = true) :
    op.addressesSlot = false := by
  cases op <;> simp_all [Op.inDeclaration, Op.addressesSlot]

theorem Op.global_iff {op : Op} :
    op.usesConstant = true ∧ op ≠ .constant ↔ op = .getGlobal ∨ op = .setGlobal ∨ op = .defineGlobal := by
  cases op <;> simp [Op.usesConstant]

/-- The lines of every compile: one per code byte, never going back, each a line of the source. -/
theorem compile_lines (src : Bytes) (heap : Heap) (name : String) :
    (compile src heap name).chunk.code.size = (compile src heap name).chunk.lines.size ∧
      (compile src heap name).chunk.lines.toList.Pairwise (· ≤ ·) ∧
      ∀ l ∈ (compile src heap name).chunk.lines.toList, 1 ≤ l ∧ l ≤ src.count 10 + 1 := by
  obtain ⟨ps, line, hPlaces, hSorted, hBounds, -⟩ := compile_placed src heap name
  refine ⟨hPlaces.size_eq, ?_, ?_⟩
  · rw [hPlaces.lines]
    exact pairwise_flatMap_lines hSorted
  · intro l hl
    rw [hPlaces.lines] at hl
    obtain ⟨p, hp, rfl⟩ := mem_flatMap_lines hl
    have := hBounds p hp
    omega

section Success

variable {src : Bytes} {heap : Heap} {name : String} (hHeap : heap.WF)
  (hClean : (compile src heap name).failure = none)
include hHeap hClean

/-- A compile without error is of tokens the grammar derives. -/
theorem compile_derives : ∃ prog, Derives prog (Scanner.scan src).1 := by
  have hTerm := Scanner.scan_terminated src
  have hRun := run_sim (if name.isEmpty then "<script>" else name) hHeap hTerm
  simp only [compile] at hClean
  generalize (Scanner.scan src).1 = toks at hTerm hRun hClean ⊢
  generalize ((do advance; declarations (toks.length + 1); emitOp .ret : M Unit).run
    (start toks heap (if name.isEmpty then "<script>" else name))).2 = s at hRun hClean
  cases hP : parseProgram (toks.length + 1) toks with
  | none =>
    -- without a derivation the compile records an error
    rw [hP] at hRun
    simp only [RunOutcome] at hRun
    simp [hRun] at hClean
  | some prog => exact ⟨prog, parseProgram_sound _ _ _ hTerm hP⟩

variable {prog : List Decl} (hProg : Derives prog (Scanner.scan src).1)
include hProg

/-- A compile without error leaves the instructions of the derivation's code, which hold from
none to the program's need, followed by the return; the chunk is checked against them. -/
theorem compile_checked : ∃ xs, (programCode prog []).1 = encode xs ∧
    Profile xs 0 0 (programNeed prog) ∧ (∀ x ∈ xs, x.op.inDeclaration = true) ∧
    (compile src heap name).chunk.Checked (xs ++ [Instr.ret]) := by
  obtain ⟨hCode, hFits, -, hConsts⟩ := compile_chunk src heap name hHeap hProg hClean
  obtain ⟨xs, hXs, hProfile, hInstrs⟩ := programCode_profile prog hProg.1 []
  refine ⟨xs, hXs, hProfile, fun x hx => (hInstrs x hx).1, ⟨?_, ?_, ?_, ?_⟩⟩
  · rw [hCode, hXs]
    simp [encode, Instr.bytes, Instr.ret]
  · rw [balanced_append]
    exact ⟨hProfile.balanced 0, by simp [Instr.ret, Op.pops]⟩
  · intro x hx hUses b hb
    rcases List.mem_append.mp hx with hx | hx
    · -- the operand is the index of a constant of the pool, and a global's is a name
      obtain ⟨i, hi, hOperand, hName⟩ := (hInstrs x hx).2 hUses
      rw [hOperand, List.mem_singleton] at hb
      subst hb
      have hLt : i < 256 := lt_of_lt_of_le hi hFits
      have hIdx : i.toUInt8.toNat = i := by simp [Nat.mod_eq_of_lt hLt]
      obtain ⟨k, hk⟩ : ∃ k, (programCode prog []).2[i]? = some k := ⟨_, List.getElem?_eq_getElem hi⟩
      obtain ⟨v, hv, hDen⟩ := hConsts i k hk
      refine ⟨v, by rw [hIdx]; exact hv, fun hNe => ?_⟩
      obtain ⟨y, hy⟩ := hName hNe
      rw [hk, Option.some.injEq] at hy
      subst hy
      obtain ⟨str, -, rfl⟩ := hDen
      exact ⟨str, rfl⟩
    · rw [List.mem_singleton] at hx
      subst hx
      simp [Instr.ret, Op.usesConstant] at hUses
  · intro x hx
    rcases List.mem_append.mp hx with hx | hx
    · exact Op.addressesSlot_of_inDeclaration (hInstrs x hx).1
    · rw [List.mem_singleton] at hx
      subst hx
      rfl

/-- The chunk is checked against every reading of the derivation's code as instructions. -/
theorem compile_checked_of_encode {ys : List Instr} (hYs : (programCode prog []).1 = encode ys) :
    (compile src heap name).chunk.Checked (ys ++ [Instr.ret]) := by
  obtain ⟨xs, hXs, -, -, hC⟩ := compile_checked hHeap hClean hProg
  rwa [encode_injective (hYs.symm.trans hXs)]

end Success

section Split

variable {src : Bytes} {heap : Heap} {name : String} (hHeap : heap.WF)
  (hClean : (compile src heap name).failure = none)
include hHeap hClean

/-- Cut after some declarations, the chunk is checked against their code, which leaves the stack
empty, and the rest. -/
theorem compile_split {pre post : List Decl} (hProg : Derives (pre ++ post) (Scanner.scan src).1) :
    ∃ xs zs, (compile src heap name).chunk.Checked (xs ++ zs) ∧
      (encode xs).length = (programCode pre []).1.length ∧ depthAfter xs 0 = 0 := by
  have hWF := hProg.1
  obtain ⟨xs, hXs, hPre, -⟩ :=
    programCode_profile pre (fun d hd => hWF d (List.mem_append_left _ hd)) []
  obtain ⟨zs, hZs, -, -⟩ :=
    programCode_profile post (fun d hd => hWF d (List.mem_append_right _ hd)) (programCode pre []).2
  have hCode : (programCode (pre ++ post) []).1 = encode (xs ++ zs) := by
    rw [programCode_append, hXs, hZs, encode_append]
  have hC := compile_checked_of_encode hHeap hClean hProg hCode
  refine ⟨xs, zs ++ [Instr.ret], by rwa [← List.append_assoc], by rw [hXs], ?_⟩
  simpa using hPre.after 0

/-- Cut around one declaration, the chunk is checked against the code before it, which leaves
the stack empty, the declaration's code, which holds from none to its need, and the rest. -/
theorem compile_split_around {pre post : List Decl} {d : Decl}
    (hProg : Derives (pre ++ d :: post) (Scanner.scan src).1) :
    ∃ xs ys zs, (compile src heap name).chunk.Checked (xs ++ ys ++ zs) ∧
      (encode xs).length = (programCode pre []).1.length ∧
      (encode xs).length + (encode ys).length = (programCode (pre ++ [d]) []).1.length ∧
      depthAfter xs 0 = 0 ∧ Profile ys 0 0 d.need := by
  have hWF := hProg.1
  obtain ⟨xs, hXs, hPre, -⟩ :=
    programCode_profile pre (fun d hd => hWF d (List.mem_append_left _ hd)) []
  obtain ⟨ys, hYs, hMid, -⟩ := d.code_profile (hWF d (by simp)) (programCode pre []).2
  obtain ⟨zs, hZs, -, -⟩ := programCode_profile post
    (fun d' hd => hWF d' (by simp [hd])) (d.code (programCode pre []).2).2
  have hCode : (programCode (pre ++ d :: post) []).1 = encode (xs ++ ys ++ zs) := by
    simp [programCode_append, hXs, hYs, hZs]
  have hC := compile_checked_of_encode hHeap hClean hProg hCode
  refine ⟨xs, ys, zs ++ [Instr.ret], by rwa [← List.append_assoc], by rw [hXs], ?_,
    by simpa using hPre.after 0, hMid⟩
  simp [programCode_append, programCode, hXs, hYs]

end Split

section Runs

variable {src : Bytes} {heap : Heap} {name : String} (hHeap : heap.WF)
  (hClean : (compile src heap name).failure = none)
include hHeap hClean

/-- A compile without error leaves whole instructions ending in the only return, each byte at
the line of its instruction; no instruction addresses a stack slot, every constant operand is
an index into the pool, and a global's is the index of a string. -/
theorem compile_code : ∃ (prog : List Decl) (ins : List Instr) (ps : List Placed),
    Derives prog (Scanner.scan src).1 ∧
    decode (compile src heap name).chunk.code.toList = some (ins ++ [Instr.ret]) ∧
    ps.map Placed.instr = ins ++ [Instr.ret] ∧
    (compile src heap name).chunk.lines.toList = ps.flatMap Placed.lines ∧
    (∀ x ∈ ins, x.op ≠ .ret ∧ x.op ≠ .getLocal ∧ x.op ≠ .setLocal) ∧
    (∀ x ∈ ins, x.op.usesConstant = true → ∀ b ∈ x.operand,
      b.toNat < (compile src heap name).chunk.constants.size) ∧
    (∀ x ∈ ins, x.op = .getGlobal ∨ x.op = .setGlobal ∨ x.op = .defineGlobal → ∀ b ∈ x.operand,
      ∃ str, (compile src heap name).chunk.constants[b.toNat]? = some (.obj (.str str))) := by
  obtain ⟨prog, hProg⟩ := compile_derives hHeap hClean
  obtain ⟨xs, -, -, hDecl, hC⟩ := compile_checked hHeap hClean hProg
  obtain ⟨ps, line, hPlaces, -, -, -⟩ := compile_placed src heap name
  have hMap := encode_injective (hPlaces.code.symm.trans hC.code)
  refine ⟨prog, xs, _, hProg, by rw [hC.code, decode_encode], hMap, hPlaces.lines, ?_, ?_, ?_⟩
  · intro x hx
    have hIn := hDecl x hx
    refine ⟨?_, ?_, ?_⟩ <;> intro hOp <;> simp [hOp, Op.inDeclaration] at hIn
  · intro x hx hUses b hb
    obtain ⟨v, hv, -⟩ := hC.operands x (List.mem_append_left _ hx) hUses b hb
    exact (Array.getElem?_eq_some_iff.mp hv).1
  · intro x hx hGlobal b hb
    obtain ⟨hUses, hNe⟩ := Op.global_iff.mpr hGlobal
    obtain ⟨v, hv, hStr⟩ := hC.operands x (List.mem_append_left _ hx) hUses b hb
    obtain ⟨str, rfl⟩ := hStr hNe
    exact ⟨str, hv⟩

/-- A run of a compiled chunk fails neither for too few values, nor for a byte that names no
instruction, nor for an operand that is missing or names nothing. -/
theorem compile_run_fault (m : Machine) {f : Fault} (h : (m.run (compile src heap name).chunk).2 = some f) :
    f.kind ≠ .stackUnderflow ∧ f.kind ≠ .invalidOpcode ∧ f.kind ≠ .invalidOperand := by
  obtain ⟨prog, hProg⟩ := compile_derives hHeap hClean
  obtain ⟨xs, -, -, -, hC⟩ := compile_checked hHeap hClean hProg
  obtain ⟨n, s, s', hR, hStep⟩ := run_fault h
  rcases hC.fault_kinds (hC.reaches_typed hR (typed_reset _ m)) hStep with h | h | h | h | ⟨h, -⟩ <;>
    simp [h]

/-- Between declarations, a run of a compiled chunk has an empty stack. -/
theorem compile_empty_between {pre post : List Decl} (hProg : Derives (pre ++ post) (Scanner.scan src).1)
    (m : Machine) {n : Nat} {s : Machine} (hR : Reaches (compile src heap name).chunk m.reset n s)
    (hAt : s.ip = (programCode pre []).1.length) : s.stack.size = 0 := by
  obtain ⟨xs, zs, hC, hLen, hPre⟩ := compile_split hHeap hClean hProg
  rw [hC.depth_at hR (by rw [hAt, hLen]), hPre]

/-- Along a declaration's code, a run of a compiled chunk holds at most the declaration's need,
overflows only on a machine whose limit is below it, and reaches it if it gets past it. -/
theorem compile_statement {pre post : List Decl} {d : Decl}
    (hProg : Derives (pre ++ d :: post) (Scanner.scan src).1) (m : Machine) :
    (∀ n s, Reaches (compile src heap name).chunk m.reset n s → (programCode pre []).1.length ≤ s.ip →
      s.ip ≤ (programCode (pre ++ [d]) []).1.length → s.stack.size ≤ d.need) ∧
    (∀ n s s' f, Reaches (compile src heap name).chunk m.reset n s →
      (programCode pre []).1.length ≤ s.ip → s.ip < (programCode (pre ++ [d]) []).1.length →
      s.step (compile src heap name).chunk = (s', .fault f) → f.kind = .stackOverflow →
      m.stackMax < d.need) ∧
    (∀ n s, Reaches (compile src heap name).chunk m.reset n s →
      s.ip = (programCode (pre ++ [d]) []).1.length →
      ∃ k t, Reaches (compile src heap name).chunk m.reset k t ∧ (programCode pre []).1.length ≤ t.ip ∧
        t.ip ≤ (programCode (pre ++ [d]) []).1.length ∧ t.stack.size = d.need) := by
  obtain ⟨xs, ys, zs, hC, hStart, hEnd, hPre, hP⟩ := compile_split_around hHeap hClean hProg
  refine ⟨fun n s hR hLo hHi => hC.depth_le hPre hP hR (by omega) (by omega),
    fun n s s' f hR hLo hHi h hKind => hC.overflow_lt hPre hP hR (by omega) (by omega) h hKind,
    fun n s hR hAt => ?_⟩
  obtain ⟨k, t, hk, hLo, hHi, hSize⟩ := hC.peak_reached hPre hP hR (by omega)
  exact ⟨k, t, hk, by omega, by omega, hSize⟩

end Runs

/-- Compiled chunks are well formed and stack-safe. Every compile records one line per code byte,
the lines never go back, and each is a line of the source. A compile without error leaves whole
instructions of known opcodes ending in the only return, each byte recording its instruction's
line, with no instruction that addresses a stack slot, every constant operand an index into the
pool and a global's the index of a string. A run of such a chunk on any machine fails neither for
too few values, nor for an unknown opcode, nor for a bad operand; its stack is empty between
declarations and at the return; inside a declaration's code it holds at most the declaration's
need and overflows only on a machine whose limit is below that need; and once past a
declaration's code, the run has reached exactly its need inside it. -/
theorem compile_stack_safe (src : Bytes) (heap : Heap) (name : String) :
    ((compile src heap name).chunk.code.size = (compile src heap name).chunk.lines.size ∧
      (compile src heap name).chunk.lines.toList.Pairwise (· ≤ ·) ∧
      ∀ l ∈ (compile src heap name).chunk.lines.toList, 1 ≤ l ∧ l ≤ src.count 10 + 1) ∧
    (heap.WF → (compile src heap name).failure = none →
      ∃ (prog : List Decl) (ins : List Instr) (ps : List Placed),
        Derives prog (Scanner.scan src).1 ∧
        decode (compile src heap name).chunk.code.toList = some (ins ++ [Instr.ret]) ∧
        ps.map Placed.instr = ins ++ [Instr.ret] ∧
        (compile src heap name).chunk.lines.toList = ps.flatMap Placed.lines ∧
        (∀ x ∈ ins, x.op ≠ .ret ∧ x.op ≠ .getLocal ∧ x.op ≠ .setLocal) ∧
        (∀ x ∈ ins, x.op.usesConstant = true → ∀ b ∈ x.operand,
          b.toNat < (compile src heap name).chunk.constants.size) ∧
        (∀ x ∈ ins, x.op = .getGlobal ∨ x.op = .setGlobal ∨ x.op = .defineGlobal → ∀ b ∈ x.operand,
          ∃ str, (compile src heap name).chunk.constants[b.toNat]? = some (.obj (.str str))) ∧
        ∀ m : Machine,
          (∀ f, (m.run (compile src heap name).chunk).2 = some f →
            f.kind ≠ .stackUnderflow ∧ f.kind ≠ .invalidOpcode ∧ f.kind ≠ .invalidOperand) ∧
          (∀ pre post, prog = pre ++ post → ∀ n s, Reaches (compile src heap name).chunk m.reset n s →
            s.ip = (programCode pre []).1.length → s.stack.size = 0) ∧
          ∀ pre d post, prog = pre ++ d :: post →
            (∀ n s, Reaches (compile src heap name).chunk m.reset n s →
              (programCode pre []).1.length ≤ s.ip → s.ip ≤ (programCode (pre ++ [d]) []).1.length →
              s.stack.size ≤ d.need) ∧
            (∀ n s s' f, Reaches (compile src heap name).chunk m.reset n s →
              (programCode pre []).1.length ≤ s.ip → s.ip < (programCode (pre ++ [d]) []).1.length →
              s.step (compile src heap name).chunk = (s', .fault f) → f.kind = .stackOverflow →
              m.stackMax < d.need) ∧
            (∀ n s, Reaches (compile src heap name).chunk m.reset n s →
              s.ip = (programCode (pre ++ [d]) []).1.length →
              ∃ k t, Reaches (compile src heap name).chunk m.reset k t ∧
                (programCode pre []).1.length ≤ t.ip ∧
                t.ip ≤ (programCode (pre ++ [d]) []).1.length ∧ t.stack.size = d.need)) := by
  refine ⟨compile_lines src heap name, fun hHeap hClean => ?_⟩
  obtain ⟨prog, ins, ps, hProg, hDecode, hMap, hLines, hOps, hConsts, hGlobals⟩ :=
    compile_code hHeap hClean
  refine ⟨prog, ins, ps, hProg, hDecode, hMap, hLines, hOps, hConsts, hGlobals, fun m => ?_⟩
  refine ⟨fun f h => compile_run_fault hHeap hClean m h, ?_, ?_⟩
  · rintro pre post rfl n s hR hAt
    exact compile_empty_between hHeap hClean hProg m hR hAt
  · rintro pre d post rfl
    exact compile_statement hHeap hClean hProg m

/-- `info true;` compiles without error into the code the theorem describes. -/
theorem compile_info_true_safe :
    (compile (Bytes.ofString "info true;") Heap.empty "").failure = none ∧
      ∃ ins, decode (compile (Bytes.ofString "info true;") Heap.empty "").chunk.code.toList =
        some (ins ++ [Instr.ret]) := by
  have hProg : Derives [Decl.info ⟨.infoKw, Bytes.ofString "info", ⟨0, 1, 1⟩⟩
      (.literal ⟨.trueKw, Bytes.ofString "true", ⟨5, 1, 6⟩⟩) ⟨.semicolon, Bytes.ofString ";", ⟨9, 1, 10⟩⟩]
      (Scanner.scan (Bytes.ofString "info true;")).1 :=
    ⟨by simp [Decl.WF, Expr.WF], ⟨.eof, [], ⟨10, 1, 11⟩⟩, rfl, by decide +kernel⟩
  have hClean : (compile (Bytes.ofString "info true;") Heap.empty "").failure = none :=
    compile_clean Heap.wf_empty hProg (by decide +kernel)
  obtain ⟨-, ins, -, -, hDecode, -⟩ :=
    (compile_stack_safe (Bytes.ofString "info true;") Heap.empty "").2 Heap.wf_empty hClean
  exact ⟨hClean, ins, hDecode⟩

end StackScript
