import StackScript.Proofs.Heap.Intern
import StackScript.Proofs.Compiler.Program

/-! # Compiler steps

What each step of the compiler does to its state, stated once here so that the proofs about
whole parses never unfold a step again:

* moving to the next token (`run_advance`), checking, accepting and consuming a token;
* emitting code, which changes only the code (`Emits`);
* adding a constant and the constant of a name, related to the pool of the grammar's postfix
  code by `PoolRel`: the chunk holds the pool's constants in order, every name of the heap maps
  to the index of its constant in the pool, and the heap is sound.

No step clears a recorded error or loses a string of the heap (`Keeps`), and every step that
reports an error records it when none was being suppressed.
-/

namespace StackScript

set_option autoImplicit false

namespace Compiler

/-! ## Running steps -/

theorem run_bind {α β : Type} (a : M α) (f : α → M β) (s : Compiler) :
    (a >>= f).run s = (f (a.run s).1).run (a.run s).2 := rfl

@[simp] theorem run_get (s : Compiler) : (get : M Compiler).run s = (s, s) := rfl

/-- Reading the state passes it on; stated for the bind so that the state read replaces the
bound variable everywhere, decidability instances included. -/
theorem run_get_bind {β : Type} (f : Compiler → M β) (s : Compiler) : (get >>= f).run s = (f s).run s :=
  rfl

@[simp] theorem run_pure {α : Type} (a : α) (s : Compiler) : (pure a : M α).run s = (a, s) := rfl

@[simp] theorem run_set (s s' : Compiler) : (set s' : M PUnit).run s = (⟨⟩, s') := rfl

@[simp] theorem run_modify (f : Compiler → Compiler) (s : Compiler) :
    (modify f : M PUnit).run s = (⟨⟩, f s) := rfl

/-- What no step undoes: a recorded error stays recorded, and a sound heap only grows. -/
structure Follows (s s' : Compiler) : Prop where
  hadError : s.hadError = true → s'.hadError = true
  heap : s.heap.Grows s'.heap

theorem Follows.refl (s : Compiler) : Follows s s := ⟨id, Heap.Grows.refl _⟩

theorem Follows.trans {s₁ s₂ s₃ : Compiler} (h₁₂ : Follows s₁ s₂) (h₂₃ : Follows s₂ s₃) :
    Follows s₁ s₃ :=
  ⟨fun h => h₂₃.hadError (h₁₂.hadError h), h₁₂.heap.trans h₂₃.heap⟩

/-- A step that leaves the heap alone and records no less. -/
theorem Follows.of_heap {s s' : Compiler} (hHeap : s'.heap = s.heap)
    (hErr : s.hadError = true → s'.hadError = true) : Follows s s' :=
  ⟨hErr, hHeap ▸ Heap.Grows.refl _⟩

/-- A step that undoes nothing: every run of it follows its start. -/
def Keeps {α : Type} (m : M α) : Prop := ∀ s : Compiler, Follows s (m.run s).2

theorem Keeps.hadError {α : Type} {m : M α} (h : Keeps m) {s : Compiler} (hs : s.hadError = true) :
    (m.run s).2.hadError = true :=
  (h s).hadError hs

theorem Keeps.bind {α β : Type} {a : M α} {f : α → M β} (ha : Keeps a) (hf : ∀ x, Keeps (f x)) :
    Keeps (a >>= f) :=
  fun s => (ha s).trans (hf _ _)

theorem keeps_pure {α : Type} (a : α) : Keeps (pure a : M α) := Follows.refl

theorem keeps_get : Keeps (get : M Compiler) := Follows.refl

theorem keeps_ite {α : Type} {c : Prop} [Decidable c] {a b : M α} (ha : Keeps a) (hb : Keeps b) :
    Keeps (if c then a else b) := by
  split
  · exact ha
  · exact hb

/-- No error being suppressed, and none recorded. -/
structure Clean (s : Compiler) : Prop where
  hadError : s.hadError = false
  panicMode : s.panicMode = false

/-! ## Errors -/

theorem run_errorAt (t : Token) (message : String) (s : Compiler) :
    (errorAt t message).run s = (⟨⟩, if s.panicMode then s else
      { s with panicMode := true, hadError := true,
               diagnostics := s.diagnostics.push (Diagnostic.atToken t message) }) := rfl

theorem keeps_errorAt (t : Token) (message : String) : Keeps (errorAt t message) := by
  intro s
  rw [run_errorAt]
  split
  · exact Follows.refl s
  · exact Follows.of_heap rfl fun _ => rfl

/-- An error reported while none is suppressed is recorded. -/
theorem errorAt_records (t : Token) (message : String) {s : Compiler} (hPanic : s.panicMode = false) :
    ((errorAt t message).run s).2.hadError = true := by
  rw [run_errorAt, if_neg (by simp [hPanic])]

theorem keeps_error (message : String) : Keeps (error message) :=
  keeps_get.bind fun _ => keeps_errorAt _ _

theorem keeps_errorAtCurrent (message : String) : Keeps (errorAtCurrent message) :=
  keeps_get.bind fun _ => keeps_errorAt _ _

/-! ## Moving through the tokens -/

/-- Moving on when the next token is not a scanner error. -/
theorem run_advance {s : Compiler} (hErr : (pop s.tokens).1.kind ≠ .error) :
    advance.run s =
      (⟨⟩, { s with previous := s.current, current := (pop s.tokens).1, tokens := (pop s.tokens).2,
                    pulls := s.pulls + 1 }) := by
  simp [advance, advance.skip, hErr]
  rfl

theorem keeps_advance_skip : ∀ fuel, Keeps (advance.skip fuel)
  | 0 => keeps_pure _
  | fuel + 1 => by
    intro s
    dsimp only [advance.skip, run_bind, run_get, run_set]
    -- Moving to the next token leaves the heap; an error token is reported and skipped.
    refine Follows.trans ?_
      (keeps_ite ((keeps_errorAtCurrent _).bind fun _ => keeps_advance_skip fuel) (keeps_pure _) _)
    exact Follows.of_heap rfl id

theorem keeps_advance : Keeps advance := by
  intro s
  simp only [advance, run_bind, run_modify, run_get]
  refine Follows.trans ?_ (keeps_advance_skip _ _)
  exact Follows.of_heap rfl id

/-- Moving on to a scanner error token records an error. -/
theorem advance_records {s : Compiler} (hPanic : s.panicMode = false)
    (hErr : (pop s.tokens).1.kind = .error) : (advance.run s).2.hadError = true := by
  simp only [advance, run_bind, run_modify, run_get, advance.skip, run_set, hErr,
    beq_self_eq_true, if_true]
  refine (keeps_advance_skip _).hadError ?_
  simp only [errorAtCurrent, run_bind, run_get]
  exact errorAt_records _ _ hPanic

theorem run_check (k : TokenKind) (s : Compiler) : (check k).run s = (s.current.kind == k, s) := rfl

theorem keeps_check (k : TokenKind) : Keeps (check k) := Follows.refl

theorem run_accept_of_ne {k : TokenKind} {s : Compiler} (hk : s.current.kind ≠ k) :
    (accept k).run s = (false, s) := by
  simp only [accept, run_bind, run_check, beq_iff_eq, hk, if_false]
  rfl

theorem run_accept_of_eq {k : TokenKind} {s : Compiler} (hk : s.current.kind = k) :
    (accept k).run s = (true, (advance.run s).2) := by
  simp only [accept, run_bind, run_check, hk, beq_self_eq_true, if_true]
  rfl

/-- Where only a token of kind `k` could be accepted and the current one is not one, the
continuation runs as if none was. -/
theorem run_accept_or_false {β : Type} {c : Prop} [Decidable c] {k : TokenKind} {K : Bool → M β}
    {s : Compiler} (hk : c → s.current.kind ≠ k) :
    (if c then accept k >>= K else pure false >>= K).run s = (K false).run s := by
  by_cases hc : c
  · rw [if_pos hc, run_bind, run_accept_of_ne (hk hc)]
  · rw [if_neg hc]
    rfl

theorem keeps_accept (k : TokenKind) : Keeps (accept k) :=
  (keeps_check k).bind fun _ => keeps_ite (keeps_advance.bind fun _ => keeps_pure _) (keeps_pure _)

theorem run_consume_of_eq {k : TokenKind} {message : String} {s : Compiler} (hk : s.current.kind = k) :
    (consume k message).run s = advance.run s := by
  simp only [consume, run_bind, run_check, hk, beq_self_eq_true, if_true]

theorem consume_records {k : TokenKind} {message : String} {s : Compiler} (hk : s.current.kind ≠ k)
    (hPanic : s.panicMode = false) : ((consume k message).run s).2.hadError = true := by
  simp only [consume, run_bind, run_check, beq_iff_eq, hk, if_false, errorAtCurrent, run_get]
  exact errorAt_records _ _ hPanic

theorem keeps_consume (k : TokenKind) (message : String) : Keeps (consume k message) :=
  (keeps_check k).bind fun _ => keeps_ite keeps_advance (keeps_errorAtCurrent _)

/-! ## Emitting code -/

/-- `s'` is `s` with `bytes` appended to its code: nothing else a later step reads changes. -/
structure Emits (s s' : Compiler) (bytes : List UInt8) : Prop where
  tokens : s'.tokens = s.tokens
  previous : s'.previous = s.previous
  current : s'.current = s.current
  hadError : s'.hadError = s.hadError
  panicMode : s'.panicMode = s.panicMode
  heap : s'.heap = s.heap
  names : s'.names = s.names
  constants : s'.chunk.constants = s.chunk.constants
  code : s'.chunk.code.toList = s.chunk.code.toList ++ bytes

theorem Emits.trans {s₁ s₂ s₃ : Compiler} {b₁ b₂ : List UInt8} (h₁ : Emits s₁ s₂ b₁)
    (h₂ : Emits s₂ s₃ b₂) : Emits s₁ s₃ (b₁ ++ b₂) :=
  ⟨h₂.tokens.trans h₁.tokens, h₂.previous.trans h₁.previous, h₂.current.trans h₁.current,
    h₂.hadError.trans h₁.hadError, h₂.panicMode.trans h₁.panicMode, h₂.heap.trans h₁.heap,
    h₂.names.trans h₁.names, h₂.constants.trans h₁.constants, by rw [h₂.code, h₁.code, List.append_assoc]⟩

theorem run_emit (b : UInt8) (s : Compiler) :
    (emit b).run s = (⟨⟩, { s with chunk := s.chunk.write b s.previous.pos.line }) := rfl

theorem emits_emit (b : UInt8) (s : Compiler) : Emits s ((emit b).run s).2 [b] :=
  ⟨rfl, rfl, rfl, rfl, rfl, rfl, rfl, rfl, by simp [run_emit, Chunk.write]⟩

theorem keeps_emit (b : UInt8) : Keeps (emit b) := fun _ => Follows.of_heap rfl id

theorem emits_emitOp (op : Op) (s : Compiler) : Emits s ((emitOp op).run s).2 [op.code] :=
  emits_emit op.code s

theorem keeps_emitOp (op : Op) : Keeps (emitOp op) := keeps_emit _

theorem emits_forM_emitOp : ∀ (ops : List Op) (s : Compiler),
    Emits s ((ops.forM emitOp).run s).2 (ops.map Op.code)
  | [], _ => ⟨rfl, rfl, rfl, rfl, rfl, rfl, rfl, rfl, (List.append_nil _).symm⟩
  | op :: ops, s => (emits_emitOp op s).trans (emits_forM_emitOp ops _)

theorem keeps_forM_emitOp (ops : List Op) : Keeps (ops.forM emitOp) :=
  fun s => Follows.of_heap (emits_forM_emitOp ops s).heap fun h => (emits_forM_emitOp ops s).hadError.trans h

end Compiler

/-! ## The constant pool -/

/-- How a chunk holds a constant of the grammar's pool, in a heap: a number as itself, a string
or a name as the interned string with its bytes. -/
def Const.Denotes (h : Heap) : Const → Value → Prop
  | .number x, v => v = .number x
  | .string c, v => ∃ str, h.lookup? c = some str ∧ v = .obj (.str str)
  | .name c, v => ∃ str, h.lookup? c = some str ∧ v = .obj (.str str)

theorem Const.Denotes.intern {h : Heap} (hWF : h.WF) {c : Const} {v : Value} (hDen : c.Denotes h v)
    (x : Bytes) : c.Denotes (h.intern x).1 v := by
  cases c with
  | number => exact hDen
  | string c | name c =>
    obtain ⟨str, hl, hv⟩ := hDen
    exact ⟨str, hWF.lookup?_intern_of_some hl, hv⟩

theorem Const.isName_eq_true {c : Const} {x : Bytes} (h : c.isName x = true) : c = .name x := by
  cases c with
  | name y => rw [eq_of_beq h]
  | _ => cases h

theorem nameIndex?_append_of_isName {pool : List Const} {c : Const} {x : Bytes}
    (hc : c.isName x = false) : nameIndex? (pool ++ [c]) x = nameIndex? pool x := by
  simp [nameIndex?, List.findIdx?_append, List.findIdx?_cons, hc]

theorem nameIndex?_append_name_self {pool : List Const} {x : Bytes} (hNone : nameIndex? pool x = none) :
    nameIndex? (pool ++ [.name x]) x = some pool.length := by
  rw [nameIndex?] at hNone
  simp [nameIndex?, List.findIdx?_append, List.findIdx?_cons, hNone, Const.isName]

theorem nameIndex?_getElem {pool : List Const} {x : Bytes} {i : Nat} (h : nameIndex? pool x = some i) :
    pool[i]? = some (.name x) := by
  obtain ⟨hi, hName, -⟩ := List.findIdx?_eq_some_iff_getElem.mp h
  rw [List.getElem?_eq_getElem hi, Const.isName_eq_true hName]

theorem lookup_eq_none_of_lt {l : List (Nat × Nat)} {n : Nat} (h : ∀ p ∈ l, p.1 < n) :
    l.lookup n = none := by
  induction l with
  | nil => rfl
  | cons p l ih =>
    obtain ⟨k, v⟩ := p
    have hk : (n == k) = false := beq_eq_false_iff_ne.mpr (Nat.ne_of_gt (h (k, v) List.mem_cons_self))
    rw [List.lookup_cons, hk]
    exact ih fun q hq => h q (List.mem_cons_of_mem _ hq)

namespace Compiler

/-- The compiler's constants, heap and name table hold the pool `pool`: the chunk holds its
constants in order, every interned name maps to the index of its constant, and the heap is
sound with every serial of the name table already given out. -/
structure PoolRel (s : Compiler) (pool : List Const) : Prop where
  heap : s.heap.WF
  size : s.chunk.constants.size = pool.length
  consts : ∀ (i : Nat) (c : Const), pool[i]? = some c →
    ∃ v, s.chunk.constants[i]? = some v ∧ c.Denotes s.heap v
  names : ∀ (c : Bytes) (str : Str), s.heap.lookup? c = some str →
    s.names.lookup str.serial = nameIndex? pool c
  fresh : ∀ p ∈ s.names, p.1 < s.heap.nextSerial

variable {s s' : Compiler} {pool : List Const}

theorem PoolRel.congr (hRel : PoolRel s pool) (hHeap : s'.heap = s.heap)
    (hConsts : s'.chunk.constants = s.chunk.constants) (hNames : s'.names = s.names) :
    PoolRel s' pool := by
  obtain ⟨h₁, h₂, h₃, h₄, h₅⟩ := hRel
  exact ⟨hHeap ▸ h₁, hConsts ▸ h₂, hConsts ▸ hHeap ▸ h₃, hNames ▸ hHeap ▸ h₄, hNames ▸ hHeap ▸ h₅⟩

/-- A name of the pool is interned. -/
theorem PoolRel.interned (hRel : PoolRel s pool) {x : Bytes} {i : Nat} (hi : nameIndex? pool x = some i) :
    ∃ str, s.heap.lookup? x = some str := by
  obtain ⟨v, -, str, hl, -⟩ := hRel.consts i _ (nameIndex?_getElem hi)
  exact ⟨str, hl⟩

theorem PoolRel.intern (hRel : PoolRel s pool) (x : Bytes) :
    PoolRel { s with heap := (s.heap.intern x).1 } pool := by
  obtain ⟨hLookup, hSerial, hLe⟩ := (hRel.heap.intern x).2
  refine ⟨(hRel.heap.intern x).1, hRel.size, fun i c hc => ?_, fun c str hl => ?_, fun p hp => ?_⟩
  · obtain ⟨v, hv, hDen⟩ := hRel.consts i c hc
    exact ⟨v, hv, hDen.intern hRel.heap x⟩
  · show s.names.lookup str.serial = nameIndex? pool c
    rw [hLookup c] at hl
    split at hl
    · rename_i hc
      subst hc
      cases hOld : s.heap.lookup? c with
      | some str₀ =>
        rw [Heap.intern_of_lookup? hOld] at hl
        cases hl
        exact hRel.names c str₀ hOld
      | none =>
        -- A new string: no name has its serial, and the pool has no constant of its bytes.
        cases hl
        rw [hSerial hOld, lookup_eq_none_of_lt hRel.fresh]
        cases hIdx : nameIndex? pool c with
        | none => rfl
        | some i =>
          obtain ⟨str, hl'⟩ := hRel.interned hIdx
          rw [hOld] at hl'
          cases hl'
    · exact hRel.names c str hl
  · exact Nat.lt_of_lt_of_le (hRel.fresh p hp) hLe

theorem consts_push {h : Heap} {consts : Array Value} (hSize : consts.size = pool.length)
    (hConsts : ∀ (i : Nat) (c : Const), pool[i]? = some c → ∃ v, consts[i]? = some v ∧ c.Denotes h v)
    {c : Const} {v : Value} (hDen : c.Denotes h v) :
    ∀ (i : Nat) (c' : Const), (pool ++ [c])[i]? = some c' →
      ∃ w, (consts.push v)[i]? = some w ∧ c'.Denotes h w := by
  intro i c' hc'
  rw [Array.getElem?_push, hSize]
  rw [List.getElem?_append] at hc'
  split at hc'
  · rename_i hi
    rw [if_neg (Nat.ne_of_lt hi)]
    exact hConsts i c' hc'
  · rename_i hi
    have hEq : i = pool.length := by
      have := (List.getElem?_eq_some_iff.mp hc').1
      simp at this
      omega
    subst hEq
    simp only [Nat.sub_self, List.getElem?_cons_zero, Option.some.injEq] at hc'
    subst hc'
    exact ⟨v, if_pos rfl, hDen⟩

/-- A literal's constant joins the pool at its end. -/
theorem PoolRel.push (hRel : PoolRel s pool) {c : Const} {v : Value} (hDen : c.Denotes s.heap v)
    (hc : ∀ x, c.isName x = false) :
    PoolRel { s with chunk := (s.chunk.addConstant v).1 } (pool ++ [c]) := by
  refine ⟨hRel.heap, by simp [Chunk.addConstant, hRel.size], consts_push hRel.size hRel.consts hDen,
    fun x str hl => ?_, hRel.fresh⟩
  rw [nameIndex?_append_of_isName (hc x)]
  exact hRel.names x str hl

/-- A name's constant joins the pool at its end, and the name table maps its string there. -/
theorem PoolRel.pushName (hRel : PoolRel s pool) {x : Bytes} {str : Str} (hl : s.heap.lookup? x = some str)
    (hNone : nameIndex? pool x = none) :
    PoolRel { s with chunk := (s.chunk.addConstant (.obj (.str str))).1,
                     names := (str.serial, pool.length) :: s.names } (pool ++ [.name x]) := by
  refine ⟨hRel.heap, by simp [Chunk.addConstant, hRel.size],
    consts_push hRel.size hRel.consts ⟨str, hl, rfl⟩, fun c str' hl' => ?_, fun p hp => ?_⟩
  · show ((str.serial, pool.length) :: s.names).lookup str'.serial = nameIndex? (pool ++ [.name x]) c
    rw [List.lookup_cons]
    by_cases hSerial : str'.serial = str.serial
    · -- One serial: the same bytes, so the name just added.
      have hc := hRel.heap.lookup?_serial_inj hl' hl hSerial
      subst hc
      rw [beq_iff_eq.mpr hSerial, nameIndex?_append_name_self hNone]
    · have hcx : x ≠ c := by
        rintro rfl
        rw [hl] at hl'
        cases hl'
        exact hSerial rfl
      have hOther : (Const.name x).isName c = false := beq_eq_false_iff_ne.mpr hcx
      rw [beq_eq_false_iff_ne.mpr hSerial, nameIndex?_append_of_isName hOther]
      exact hRel.names c str' hl'
  · show p.1 < s.heap.nextSerial
    rcases List.mem_cons.mp hp with rfl | hp
    · exact (hRel.heap.lookup?_spec hl).2
    · exact hRel.fresh p hp

/-! ## The compiler at a point of a parse -/

/-- The compiler with no error, reading the stream `ts`, having emitted `code` and holding the
pool `pool`. -/
structure At (s : Compiler) (ts : List Token) (code : List UInt8) (pool : List Const) : Prop where
  hadError : s.hadError = false
  panicMode : s.panicMode = false
  current : s.current = (pop ts).1
  tokens : s.tokens = (pop ts).2
  code : s.chunk.code.toList = code
  rel : PoolRel s pool
  bound : pool.length ≤ Chunk.maxConstants

variable {ts ts' : List Token} {code : List UInt8}

theorem At.of_emits (hAt : At s ts code pool) {bytes : List UInt8} (h : Emits s s' bytes) :
    At s' ts (code ++ bytes) pool :=
  ⟨h.hadError.trans hAt.hadError, h.panicMode.trans hAt.panicMode, h.current.trans hAt.current,
    h.tokens.trans hAt.tokens, by rw [h.code, hAt.code],
    hAt.rel.congr h.heap h.constants h.names, hAt.bound⟩

theorem At.emit (hAt : At s ts code pool) (b : UInt8) : At ((Compiler.emit b).run s).2 ts (code ++ [b]) pool :=
  hAt.of_emits (emits_emit b s)

theorem At.emitOp (hAt : At s ts code pool) (op : Op) :
    At ((Compiler.emitOp op).run s).2 ts (code ++ [op.code]) pool :=
  hAt.emit op.code

theorem At.advance (hAt : At s ts code pool) (hAdv : advance? ts = some ts') :
    At (Compiler.advance.run s).2 ts' code pool ∧ (Compiler.advance.run s).2.previous = (pop ts).1 := by
  obtain ⟨rfl, hErr⟩ := advance?_eq_some.mp hAdv
  rw [run_advance (by rw [hAt.tokens]; exact hErr)]
  exact ⟨⟨hAt.hadError, hAt.panicMode, by rw [hAt.tokens], by rw [hAt.tokens], hAt.code,
    hAt.rel.congr rfl rfl rfl, hAt.bound⟩, hAt.current⟩

theorem At.advance_records (hAt : At s ts code pool) (hAdv : advance? ts = none) :
    (Compiler.advance.run s).2.hadError = true := by
  refine Compiler.advance_records hAt.panicMode ?_
  rw [hAt.tokens]
  unfold advance? at hAdv
  split at hAdv
  · assumption
  · cases hAdv

theorem At.accept_of_ne (hAt : At s ts code pool) {k : TokenKind} (hk : (pop ts).1.kind ≠ k) :
    (Compiler.accept k).run s = (false, s) :=
  run_accept_of_ne (by rw [hAt.current]; exact hk)

theorem At.accept_of_eq (hAt : At s ts code pool) {k : TokenKind} (hk : (pop ts).1.kind = k) :
    (Compiler.accept k).run s = (true, (Compiler.advance.run s).2) :=
  run_accept_of_eq (by rw [hAt.current]; exact hk)

theorem At.consume (hAt : At s ts code pool) {k : TokenKind} {message : String}
    (hk : (pop ts).1.kind = k) (hAdv : advance? ts = some ts') :
    At ((Compiler.consume k message).run s).2 ts' code pool := by
  rw [run_consume_of_eq (by rw [hAt.current]; exact hk)]
  exact (hAt.advance hAdv).1

theorem At.consume_records (hAt : At s ts code pool) {k : TokenKind} {message : String}
    (hk : (pop ts).1.kind ≠ k) : ((Compiler.consume k message).run s).2.hadError = true :=
  Compiler.consume_records (by rw [hAt.current]; exact hk) hAt.panicMode

theorem At.consume_records_of_advance (hAt : At s ts code pool) {k : TokenKind} {message : String}
    (hk : (pop ts).1.kind = k) (hAdv : advance? ts = none) :
    ((Compiler.consume k message).run s).2.hadError = true := by
  rw [run_consume_of_eq (by rw [hAt.current]; exact hk)]
  exact hAt.advance_records hAdv

theorem At.intern (hAt : At s ts code pool) (x : Bytes) :
    At { s with heap := (s.heap.intern x).1 } ts code pool :=
  ⟨hAt.hadError, hAt.panicMode, hAt.current, hAt.tokens, hAt.code, hAt.rel.intern x, hAt.bound⟩

theorem run_addConstant_fits {v : Value} (hFit : s.chunk.constants.size < Chunk.maxConstants) :
    (addConstant v).run s = (some s.chunk.constants.size, { s with chunk := (s.chunk.addConstant v).1 }) := by
  rw [addConstant, run_get_bind]
  simp only [run_bind, run_set]
  have hNot : ¬ (s.chunk.addConstant v).2 ≥ Chunk.maxConstants := Nat.not_le_of_lt hFit
  rw [if_neg hNot]
  rfl

theorem addConstant_records {v : Value} (hPanic : s.panicMode = false)
    (hFull : Chunk.maxConstants ≤ s.chunk.constants.size) : ((addConstant v).run s).2.hadError = true := by
  rw [addConstant, run_get_bind]
  simp only [run_bind, run_set]
  have hGe : (s.chunk.addConstant v).2 ≥ Chunk.maxConstants := hFull
  rw [if_pos hGe]
  simp only [run_bind, error, run_get]
  exact errorAt_records _ _ hPanic

theorem keeps_addConstant (v : Value) : Keeps (addConstant v) := by
  intro s
  dsimp only [addConstant, run_bind, run_get, run_set]
  refine Follows.trans ?_ (keeps_ite ((keeps_error _).bind fun _ => keeps_pure _) (keeps_pure _) _)
  exact Follows.of_heap rfl id

theorem keeps_emitConstant (v : Value) : Keeps (emitConstant v) :=
  (keeps_addConstant v).bind fun _ => (keeps_emitOp _).bind fun _ => keeps_emit _

/-- A literal's constant, when the pool has room: its index is the pool's length. -/
theorem At.emitConstant (hAt : At s ts code pool) {c : Const} {v : Value} (hDen : c.Denotes s.heap v)
    (hc : ∀ x, c.isName x = false) (hFit : pool.length < Chunk.maxConstants) :
    At ((Compiler.emitConstant v).run s).2 ts (code ++ [Op.constant.code, pool.length.toUInt8])
      (pool ++ [c]) := by
  have hSize := hAt.rel.size
  have hAt₁ : At { s with chunk := (s.chunk.addConstant v).1 } ts code (pool ++ [c]) :=
    ⟨hAt.hadError, hAt.panicMode, hAt.current, hAt.tokens, by simp [Chunk.addConstant, hAt.code],
      hAt.rel.push hDen hc, by simp only [List.length_append, List.length_singleton]; omega⟩
  simp only [Compiler.emitConstant, run_bind, run_addConstant_fits (hSize ▸ hFit), hSize]
  have := (hAt₁.emitOp Op.constant).emit (pool.length.toUInt8)
  simpa using this

/-- The constant of a name: the one it has, else a new one at the pool's end, when the pool has
room. -/
theorem At.nameConstant (hAt : At s ts code pool) (t : Token)
    (hFit : (addName pool t.text).2.length ≤ Chunk.maxConstants) :
    ((Compiler.nameConstant t).run s).1 = (addName pool t.text).1 ∧
      At ((Compiler.nameConstant t).run s).2 ts code (addName pool t.text).2 := by
  have hAt₁ := hAt.intern t.text
  have hl : (s.heap.intern t.text).1.lookup? t.text = some (s.heap.intern t.text).2 := by
    rw [(hAt.rel.heap.intern t.text).2.1]
    simp
  have hNames := hAt₁.rel.names t.text _ hl
  rw [Compiler.nameConstant, run_get_bind]
  simp only [run_bind, run_set]
  unfold addName at hFit ⊢
  cases hIdx : nameIndex? pool t.text with
  | some i =>
    have hLookup : s.names.lookup (s.heap.intern t.text).2.serial = some i := hNames.trans hIdx
    simp only [hLookup]
    exact ⟨rfl, hAt₁⟩
  | none =>
    have hLookup : s.names.lookup (s.heap.intern t.text).2.serial = none := hNames.trans hIdx
    rw [hIdx] at hFit
    simp only [List.length_append, List.length_singleton] at hFit
    have hSize := hAt₁.rel.size
    simp only [hLookup]
    rw [run_bind, run_addConstant_fits (by rw [hSize]; unfold Chunk.maxConstants at hFit ⊢; omega)]
    simp only [run_bind, run_modify, run_pure]
    refine ⟨hSize, hAt.hadError, hAt.panicMode, hAt.current, hAt.tokens,
      by simp [Chunk.addConstant, hAt.code], ?_, by simpa using hFit⟩
    have := hAt₁.rel.pushName hl hIdx
    rw [← hSize] at this
    exact this

theorem At.nameConstant_records (hAt : At s ts code pool) (t : Token)
    (hFull : Chunk.maxConstants < (addName pool t.text).2.length) :
    ((Compiler.nameConstant t).run s).2.hadError = true := by
  have hAt₁ := hAt.intern t.text
  have hl : (s.heap.intern t.text).1.lookup? t.text = some (s.heap.intern t.text).2 := by
    rw [(hAt.rel.heap.intern t.text).2.1]
    simp
  have hNames := hAt₁.rel.names t.text _ hl
  rw [Compiler.nameConstant, run_get_bind]
  simp only [run_bind, run_set]
  unfold addName at hFull
  cases hIdx : nameIndex? pool t.text with
  | some i =>
    rw [hIdx] at hFull
    exact absurd hAt.bound (Nat.not_le_of_lt hFull)
  | none =>
    have hLookup : s.names.lookup (s.heap.intern t.text).2.serial = none := hNames.trans hIdx
    rw [hIdx] at hFull
    simp only [List.length_append, List.length_singleton] at hFull
    have hRecorded := addConstant_records (v := .obj (.str (s.heap.intern t.text).2)) hAt₁.panicMode
      (by rw [hAt₁.rel.size]; unfold Chunk.maxConstants at hFull ⊢; omega)
    simp only [hLookup, run_bind]
    split
    · exact hRecorded
    · exact hRecorded

theorem keeps_nameConstant (t : Token) : Keeps (nameConstant t) := by
  intro s
  -- Interning the name grows the heap; the rest is a look-up or a new constant.
  have hIntern : Follows s { s with heap := (s.heap.intern t.text).1 } := ⟨id, Heap.grows_intern _ _⟩
  rw [Compiler.nameConstant, run_get_bind]
  simp only [run_bind, run_set]
  split
  · exact hIntern
  · rw [run_bind]
    have h₁ := hIntern.trans
      (keeps_addConstant (.obj (.str (s.heap.intern t.text).2)) { s with heap := (s.heap.intern t.text).1 })
    split
    · exact h₁.trans (Follows.of_heap rfl id)
    · exact h₁

theorem addConstant_current (v : Value) (s : Compiler) : ((addConstant v).run s).2.current = s.current := by
  simp only [addConstant, run_bind, run_set]
  split
  · simp only [error, run_bind, run_errorAt, run_pure]
    split <;> rfl
  · rfl

/-- Looking up a name's constant leaves the current token alone. -/
theorem nameConstant_current (t : Token) (s : Compiler) :
    ((nameConstant t).run s).2.current = s.current := by
  rw [Compiler.nameConstant, run_get_bind]
  simp only [run_bind, run_set]
  split
  · rfl
  · rw [run_bind]
    have h := addConstant_current (.obj (.str (s.heap.intern t.text).2)) { s with heap := (s.heap.intern t.text).1 }
    split
    · simp only [run_bind, run_modify, run_pure]
      exact h
    · exact h

theorem At.emitConstant_records (hAt : At s ts code pool) {v : Value}
    (hFull : Chunk.maxConstants ≤ pool.length) : ((Compiler.emitConstant v).run s).2.hadError = true := by
  simp only [Compiler.emitConstant, run_bind]
  exact ((keeps_emitOp _).bind fun _ => keeps_emit _).hadError
    (addConstant_records hAt.panicMode (hAt.rel.size ▸ hFull))

end Compiler

end StackScript
