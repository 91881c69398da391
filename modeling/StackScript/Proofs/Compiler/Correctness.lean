import StackScript.Proofs.Machine.Straight
import StackScript.Proofs.Compiler.Acceptance
import StackScript.Proofs.Table.Refinement

/-! # Compiled programs run as the semantics says

The postfix code of a derivation, run by a machine, does what `Expr.eval`, `Decl.exec` and
`runProgram` say, by induction on the trees: the code of an expression leaves its value on the
stack (`Runs.evaluate`), the code of a declaration leaves the stack as it found it
(`Runs.execute`), and the code of a program goes through its declarations until the semantics
stops (`Runs.complete`). A compound case runs the code of its parts one after the other
(`Evaluated.seq`), then the instructions of its operator.

Interpreting a source the compiler accepts then writes the lines the semantics writes, leaves the
globals the semantics leaves, and stops with the runtime error of the semantics exactly when the
semantics stops with an error (`interpret_agrees_with_semantics`). The machine need only be
canonical, keep its output, have no instruction limit and have room on its stack for the deepest
expression of the program.
-/

namespace StackScript

set_option autoImplicit false

/-! ## Pools and code -/

theorem addName_getElem? (pool : List Const) (x : Bytes) :
    (addName pool x).2[(addName pool x).1]? = some (.name x) := by
  unfold addName
  split
  · next h => exact nameIndex?_getElem h
  · simp

theorem prefix_getElem? {l P : List Const} (h : l <+: P) {i : Nat} {k : Const} (hk : l[i]? = some k) :
    P[i]? = some k := by
  obtain ⟨t, rfl⟩ := h
  rw [List.getElem?_append_left (List.getElem?_eq_some_iff.mp hk).1, hk]

theorem addName_prefix (pool : List Const) (x : Bytes) : pool <+: (addName pool x).2 := by
  obtain ⟨extra, h⟩ := addName_pool pool x
  exact ⟨extra, h.symm⟩

theorem Expr.prefix_code (e : Expr) (pool : List Const) : pool <+: (e.code pool).2 := by
  obtain ⟨extra, h⟩ := e.code_pool pool
  exact ⟨extra, h.symm⟩

theorem Decl.prefix_code (d : Decl) (pool : List Const) : pool <+: (d.code pool).2 := by
  obtain ⟨extra, h⟩ := d.code_pool pool
  exact ⟨extra, h.symm⟩

namespace Expr

variable (pool : List Const)

@[simp] theorem code_ident (x : Token) :
    (ident x).code pool = ([Op.getGlobal.code, (addName pool x.text).1.toUInt8], (addName pool x.text).2) :=
  rfl

@[simp] theorem code_assign (x q : Token) (e : Expr) :
    (assign x q e).code pool =
      ((e.code (addName pool x.text).2).1 ++ [Op.setGlobal.code, (addName pool x.text).1.toUInt8],
        (e.code (addName pool x.text).2).2) :=
  rfl

@[simp] theorem code_unary (op : Token) (e : Expr) :
    (unary op e).code pool =
      ((e.code pool).1 ++ [(if op.kind = .minus then Op.negate else Op.not).code], (e.code pool).2) :=
  rfl

@[simp] theorem code_binary (op : Token) (l r : Expr) :
    (binary op l r).code pool =
      ((l.code pool).1 ++ (r.code (l.code pool).2).1 ++ (postfixOps op.kind).map Op.code,
        (r.code (l.code pool).2).2) :=
  rfl

end Expr

namespace Decl

variable (pool : List Const) (kw x semi : Token) (e : Expr)

@[simp] theorem code_var_none :
    (var kw x none semi).code pool =
      ([Op.nil.code] ++ [Op.defineGlobal.code, (addName pool x.text).1.toUInt8], (addName pool x.text).2) :=
  rfl

@[simp] theorem code_var_some (d : Token) :
    (var kw x (some (d, e)) semi).code pool =
      ((e.code (addName pool x.text).2).1 ++ [Op.defineGlobal.code, (addName pool x.text).1.toUInt8],
        (e.code (addName pool x.text).2).2) :=
  rfl

@[simp] theorem code_info : (info kw e semi).code pool = ((e.code pool).1 ++ [Op.info.code], (e.code pool).2) :=
  rfl

@[simp] theorem code_expr : (expr e semi).code pool = ((e.code pool).1 ++ [Op.pop.code], (e.code pool).2) :=
  rfl

end Decl

@[simp] theorem programCode_cons (d : Decl) (ds : List Decl) (pool : List Const) :
    programCode (d :: ds) pool =
      ((d.code pool).1 ++ (programCode ds (d.code pool).2).1, (programCode ds (d.code pool).2).2) :=
  rfl

theorem prefix_programCode : ∀ (prog : List Decl) (pool : List Const), pool <+: (programCode prog pool).2
  | [], _ => List.prefix_refl _
  | d :: ds, pool => (d.prefix_code pool).trans (prefix_programCode ds _)

namespace Machine

variable {c : Chunk} {P : List Const} {m : Machine}

/-! ## Running parts one after the other -/

/-- The code of a part that evaluates, followed by code that goes on from the value it left: an
error of the part is the error of the whole. -/
theorem Evaluated.seq {len₁ len₂ : Nat} {base base' : Array Value} {r : Env × Except RunError Val}
    {k : Env → Val → Env × Except RunError Val} (h₁ : Evaluated c P m len₁ base r)
    (h₂ : ∀ m' x, Stepped c P m m' len₁ → m'.stack = base.push x →
      Evaluated c P m' len₂ base' (k m'.env x.content)) :
    Evaluated c P m (len₁ + len₂) base' (andThen r k) := by
  obtain ⟨ρ, _ | v⟩ := r
  · exact h₁
  · obtain ⟨m', x, hS, rfl, hW, hStack, rfl⟩ := h₁
    exact Evaluated.of_stepped hS hW (h₂ m' x hS hStack)

/-- The code of an expression followed by the code that ends a declaration with its value. -/
theorem Evaluated.seq_executed {len₁ len₂ : Nat} {base : Array Value} {r : Env × Except RunError Val}
    {k : Env → Val → Env × Except RunError (List Bytes)} (h₁ : Evaluated c P m len₁ base r)
    (h₂ : ∀ m' x, Stepped c P m m' len₁ → m'.stack = base.push x →
      Executed c P m' len₂ base (k m'.env x.content)) :
    Executed c P m (len₁ + len₂) base (andThen r k) := by
  obtain ⟨ρ, _ | v⟩ := r
  · exact h₁
  · obtain ⟨m', x, hS, rfl, hW, hStack, rfl⟩ := h₁
    exact Executed.of_stepped hS hW (h₂ m' x hS hStack)

/-- `OP_NOT` after the code of a test negates its answer. -/
theorem Evaluated.then_not {len : Nat} {base : Array Value} {ρ : Env} {r : Except RunError Val}
    (h : Evaluated c P m len base (ρ, r)) (hCode : CodeAt c (m.ip + len) [Op.not.code]) :
    Evaluated c P m (len + 1) base (ρ, r.map Val.not) := by
  cases r with
  | error e => exact h
  | ok v =>
    obtain ⟨m', x, hS, rfl, hW, hStack, rfl⟩ := h
    exact Evaluated.of_stepped hS hW (hS.runs.evaluated_not (by rw [hS.ip]; exact hCode) hStack)

/-- The instructions of a binary operator, on its two operands. -/
theorem Runs.evaluated_binary (hR : Runs c P m) {k : TokenKind} (hk : infixPrecedence k ≠ 0)
    (hCode : CodeAt c m.ip ((postfixOps k).map Op.code)) {base : Array Value} {a b : Value}
    (hStack : m.stack = (base.push a).push b) :
    Evaluated c P m ((postfixOps k).map Op.code).length base (m.env, binaryOp k a.content b.content) := by
  cases k <;> simp only [infixPrecedence, ne_eq, not_true_eq_false] at hk <;>
    simp only [postfixOps, List.map_cons, List.map_nil] at hCode ⊢
  case plus => exact hR.evaluated_add hCode hStack
  case minus | star | slash | greater | less => exact hR.evaluated_numeric (by simp) hCode hStack
  case equal => exact hR.evaluated_equal hCode hStack
  -- The negated tests: the opposite test, then `OP_NOT`.
  case notEqual =>
    have hSplit : CodeAt c m.ip ([Op.equal.code] ++ [Op.not.code]) := hCode
    exact (hR.evaluated_equal hSplit.left hStack).then_not hSplit.right
  case greaterEqual =>
    have hSplit : CodeAt c m.ip ([Op.less.code] ++ [Op.not.code]) := hCode
    exact (hR.evaluated_numeric (by simp) hSplit.left hStack).then_not hSplit.right
  case lessEqual =>
    have hSplit : CodeAt c m.ip ([Op.greater.code] ++ [Op.not.code]) := hCode
    exact (hR.evaluated_numeric (by simp) hSplit.left hStack).then_not hSplit.right

/-! ## Expressions, declarations, programs -/

/-- The code of an expression, run by a machine that holds its constants and has room on the
stack for it, does what the semantics says: it leaves the value on the stack, or stops the run
with the error. -/
theorem Runs.evaluate (e : Expr) (hWF : e.WF) {pool : List Const} {m : Machine} (hR : Runs c P m)
    (hPool : (e.code pool).2 <+: P) (hCode : CodeAt c m.ip (e.code pool).1)
    (hRoom : m.stack.size + e.need ≤ m.stackMax) :
    Evaluated c P m (e.code pool).1.length m.stack (e.eval m.env) := by
  induction e generalizing pool m with
  | number t =>
    have hk : P[pool.length]? = some (.number (Compiler.numberValue t.text)) :=
      prefix_getElem? hPool (by simp [Expr.code])
    exact hR.evaluated_constant hCode hk hRoom
  | string t =>
    have hk : P[pool.length]? = some (.string (stringBody t.text)) :=
      prefix_getElem? hPool (by simp [Expr.code])
    exact hR.evaluated_constant hCode hk hRoom
  | literal t => exact hR.evaluated_literal t.kind hCode hRoom
  | ident x =>
    simp only [Expr.code_ident] at hCode hPool ⊢
    exact hR.evaluated_getGlobal hCode (prefix_getElem? hPool (addName_getElem? pool x.text)) hRoom
  | assign x q e ih =>
    simp only [Expr.code_assign, Expr.eval, List.length_append] at hCode hPool ⊢
    have hName := prefix_getElem? ((Expr.prefix_code e _).trans hPool) (addName_getElem? pool x.text)
    refine (ih hWF.2.2 hR hPool hCode.left hRoom).seq fun m' a hS hStack => ?_
    exact hS.runs.evaluated_setGlobal (by rw [hS.ip]; exact hCode.right) hName hStack
  | unary op e ih =>
    obtain ⟨hOp, hWF, -⟩ := hWF
    simp only [Expr.code_unary, Expr.eval, List.length_append] at hCode hPool ⊢
    refine (ih hWF hR hPool hCode.left hRoom).seq fun m' a hS hStack => ?_
    have hNext : CodeAt c m'.ip [(if op.kind = .minus then Op.negate else Op.not).code] := by
      rw [hS.ip]
      exact hCode.right
    rcases hOp with hMinus | hBang
    · rw [if_pos hMinus] at hNext
      rw [hMinus]
      exact hS.runs.evaluated_negate hNext hStack
    · rw [if_neg (by rw [hBang]; decide)] at hNext
      rw [hBang]
      exact hS.runs.evaluated_not hNext hStack
  | binary op l r ihl ihr =>
    obtain ⟨hk, hl, hr, -, -⟩ := hWF
    simp only [Expr.code_binary, Expr.eval] at hCode hPool ⊢
    have hNeed : m.stack.size + l.need ≤ m.stackMax ∧ m.stack.size + r.need + 1 ≤ m.stackMax := by
      simp only [Expr.need] at hRoom
      have := Nat.le_max_left l.need (r.need + 1)
      have := Nat.le_max_right l.need (r.need + 1)
      omega
    have hOps : CodeAt c (m.ip + (l.code pool).1.length + (r.code (l.code pool).2).1.length)
        ((postfixOps op.kind).map Op.code) := by
      have := hCode.right
      rwa [List.length_append, ← Nat.add_assoc] at this
    rw [List.length_append, List.length_append, Nat.add_assoc]
    -- The left operand, then the right one on top of it, then the operator.
    refine (ihl hl hR ((Expr.prefix_code r _).trans hPool) hCode.left.left hNeed.1).seq
      fun m₁ a hS₁ hStack₁ => ?_
    have hRight : CodeAt c m₁.ip (r.code (l.code pool).2).1 := by
      rw [hS₁.ip]
      exact hCode.left.right
    refine (ihr hr hS₁.runs hPool hRight (by rw [hStack₁, Array.size_push, hS₁.stackMax]; omega)).seq
      fun m₂ b hS₂ hStack₂ => ?_
    exact hS₂.runs.evaluated_binary hk.ne' (by rw [hS₂.ip, hS₁.ip]; exact hOps) (by rw [hStack₂, hStack₁])
  | group lp e rp ih => exact ih hWF.2.2 hR hPool hCode hRoom

/-- The code of a declaration, run by a machine that holds its constants and has room on the
stack for it, does what the semantics says: it writes the lines and leaves the stack as it was,
or stops the run with the error. -/
theorem Runs.execute (d : Decl) (hWF : d.WF) {pool : List Const} {m : Machine} (hR : Runs c P m)
    (hPool : (d.code pool).2 <+: P) (hCode : CodeAt c m.ip (d.code pool).1)
    (hRoom : m.stack.size + d.need ≤ m.stackMax) :
    Executed c P m (d.code pool).1.length m.stack (d.exec m.env) := by
  cases d with
  | var kw x init semi =>
    cases init with
    | none =>
      simp only [Decl.code_var_none, List.length_append] at hCode hPool ⊢
      have hName := prefix_getElem? hPool (addName_getElem? pool x.text)
      refine (hR.evaluated_push (x := .nil) hCode.left ⟨rfl, rfl, rfl⟩ rfl trivial hRoom).seq_executed
        (k := fun ρ v => (ρ.set x.text v, .ok [])) fun m' a hS hStack => ?_
      exact hS.runs.defined (by rw [hS.ip]; exact hCode.right) hName hStack
    | some init =>
      obtain ⟨q, e⟩ := init
      simp only [Decl.code_var_some, Decl.exec, List.length_append] at hCode hPool ⊢
      have hName := prefix_getElem? ((Expr.prefix_code e _).trans hPool) (addName_getElem? pool x.text)
      refine (hR.evaluate e hWF.2.2.2.1 hPool hCode.left hRoom).seq_executed fun m' a hS hStack => ?_
      exact hS.runs.defined (by rw [hS.ip]; exact hCode.right) hName hStack
  | info kw e semi =>
    simp only [Decl.code_info, Decl.exec, List.length_append] at hCode hPool ⊢
    refine (hR.evaluate e hWF.2.1 hPool hCode.left hRoom).seq_executed fun m' a hS hStack => ?_
    exact hS.runs.printed (by rw [hS.ip]; exact hCode.right) hStack
  | expr e semi =>
    simp only [Decl.code_expr, Decl.exec, List.length_append] at hCode hPool ⊢
    refine (hR.evaluate e hWF.1 hPool hCode.left hRoom).seq_executed fun m' a hS hStack => ?_
    exact hS.runs.popped (by rw [hS.ip]; exact hCode.right) hStack

/-- What running `len` bytes of the code of declarations from `m` does, for what the semantics
answers: the globals and the lines written, with the stack as it was, or the error after the
lines written before it. -/
def Completed (c : Chunk) (P : List Const) (m : Machine) (len : Nat) (r : Ran) : Prop :=
  match r.error with
  | none => ∃ m', Stepped c P m m' len ∧ m'.env = r.env ∧ m'.written = m.written ++ r.out ∧
      m'.stack = m.stack
  | some e => ∃ n m', Reaches c m n m' ∧ m'.written = m.written ++ r.out ∧ Raised c m' r.env e

theorem Completed.cons {m₁ : Machine} {l₁ l₂ : Nat} {out : List Bytes} {r : Ran}
    (h₁ : Stepped c P m m₁ l₁) (hW : m₁.written = m.written ++ out) (hStack : m₁.stack = m.stack)
    (h₂ : Completed c P m₁ l₂ r) : Completed c P m (l₁ + l₂) { r with out := out ++ r.out } := by
  obtain ⟨ρ, out₂, _ | e⟩ := r
  · obtain ⟨m', hS, hEnv, hW', hStack'⟩ := h₂
    exact ⟨m', h₁.trans hS, hEnv, by rw [hW', hW, List.append_assoc], hStack'.trans hStack⟩
  · obtain ⟨n, m', hReach, hW', hRaised⟩ := h₂
    obtain ⟨⟨k, hk⟩, -⟩ := h₁
    exact ⟨k + n, m', hk.trans hReach, by rw [hW', hW, List.append_assoc], hRaised⟩

/-- The code of declarations, run by a machine that holds their constants and has room on the
stack for each, goes through them as the semantics does. -/
theorem Runs.complete (prog : List Decl) (hWF : ∀ d ∈ prog, d.WF) {pool : List Const} {m : Machine}
    (hR : Runs c P m) (hPool : (programCode prog pool).2 <+: P) (hCode : CodeAt c m.ip (programCode prog pool).1)
    (hRoom : m.stack.size + programNeed prog ≤ m.stackMax) :
    Completed c P m (programCode prog pool).1.length (runProgram prog m.env) := by
  induction prog generalizing pool m with
  | nil => exact ⟨m, Stepped.refl hR, rfl, (List.append_nil _).symm, rfl⟩
  | cons d ds ih =>
    simp only [programCode_cons, List.length_append] at hCode hPool ⊢
    have hNeed : m.stack.size + d.need ≤ m.stackMax ∧ m.stack.size + programNeed ds ≤ m.stackMax := by
      simp only [programNeed, List.map_cons, List.foldr_cons] at hRoom ⊢
      have := Nat.le_max_left d.need ((ds.map Decl.need).foldr max 0)
      have := Nat.le_max_right d.need ((ds.map Decl.need).foldr max 0)
      omega
    have hExec := hR.execute d (hWF d List.mem_cons_self) ((prefix_programCode ds _).trans hPool)
      hCode.left hNeed.1
    simp only [runProgram]
    rcases hd : d.exec m.env with ⟨ρ, _ | out⟩
    · -- The declaration stops the run: nothing after it runs.
      rw [hd] at hExec
      exact ⟨0, m, .refl m, (List.append_nil _).symm, hExec⟩
    · rw [hd] at hExec
      obtain ⟨m₁, hS, rfl, hW, hStack⟩ := hExec
      have hRest := ih (fun d' hd' => hWF d' (List.mem_cons_of_mem _ hd')) hS.runs hPool
        (by rw [hS.ip]; exact hCode.right) (by rw [hStack, hS.stackMax]; exact hNeed.2)
      exact Completed.cons hS hW hStack hRest

/-! ## Runs of a chunk -/

/-- A path from the reset machine to a machine whose next dispatch stops is the path the run of
the chunk takes. -/
theorem start_eq_of_reaches {last : Machine} {n : Nat} (h : Reaches c m.reset n last)
    {r : Machine × Progress} (hf : finish c last = some r) : m.start c = r := by
  obtain ⟨n', last', h', hf'⟩ := runFor_ends (c := c) (c.code.size + 1) m.reset (by simp [reset])
    (by simp [reset])
  have hle := h'.le_of_finish (by rw [hf']; rfl) h
  have hge := h.le_of_finish (by rw [hf]; rfl) h'
  obtain rfl : n = n' := Nat.le_antisymm hle hge
  rw [h.det h', hf'] at hf
  exact Option.some.inj hf

/-- The run of a chunk holding the code of a program and the return, from a machine that runs it
once reset. -/
theorem Runs.run_program {prog : List Decl} (hWF : ∀ d ∈ prog, d.WF)
    (hR : Runs c (programCode prog []).2 m.reset)
    (hCode : c.code.toList = (programCode prog []).1 ++ [Op.ret.code])
    (hRoom : programNeed prog ≤ m.stackMax) :
    (m.run c).1.Canonical ∧ (m.run c).1.env = (runProgram prog m.env).env ∧
      (m.run c).1.written = m.written ++ (runProgram prog m.env).out ∧
      match (runProgram prog m.env).error with
      | none => (m.run c).2 = none
      | some e => ∃ f, (m.run c).2 = some f ∧ f = e.fault f.frame := by
  have hAt : CodeAt c m.reset.ip ((programCode prog []).1 ++ [Op.ret.code]) := ⟨[], by simp [reset, hCode]⟩
  have hDone := hR.complete prog hWF (List.prefix_refl _) hAt.left (by simpa [reset] using hRoom)
  rw [show m.reset.env = m.env from env_congr rfl rfl] at hDone
  unfold Completed at hDone
  cases hErr : (runProgram prog m.env).error with
  | none =>
    -- The program runs through: the return ends the run as it stands.
    rw [hErr] at hDone
    obtain ⟨m', hS, hEnv, hW, -⟩ := hDone
    have hRet := hS.runs.step_ret (by rw [hS.ip]; exact hAt.right)
    have hRun := start_eq_of_reaches (r := (m'.dispatch c, .finished none)) hS.reaches.choose_spec
      (by simp [finish, hRet])
    simp only [run, hRun]
    exact ⟨hS.runs.canonical.congr (by simp) (by simp), (env_congr (by simp) (by simp)).trans hEnv,
      (dispatch_written m' c).trans hW, trivial⟩
  | some e =>
    -- The semantics stops with an error: so does the run, with the machine's registers cleared.
    rw [hErr] at hDone
    obtain ⟨n, m', hReach, hW, k, s, s', f, hk, hStep, hf, hM, hEnv, hW'⟩ := hDone
    have hRun := start_eq_of_reaches (r := (s'.reset, .finished (some f))) (hReach.trans hk)
      (by simp [finish, hStep])
    simp only [run, hRun]
    exact ⟨hM.congr rfl rfl, (env_congr rfl rfl).trans hEnv, hW'.trans hW, f, rfl, hf⟩

/-- A clean compile hands its chunk to the machine with the heap of the compile; the rest of the
machine stays, but for the listing it records when it prints code. -/
theorem compile_ok {src : Bytes} {name : String} (hClean : (StackScript.compile src m.heap name).failure = none) :
    ∃ m₁, m.compile name src = (m₁, .ok (StackScript.compile src m.heap name).chunk) ∧
      m₁.heap = (StackScript.compile src m.heap name).heap ∧ m₁.globals = m.globals ∧
      m₁.written = m.written ∧ m₁.sink = m.sink ∧ m₁.limit = m.limit ∧ m₁.stackMax = m.stackMax := by
  unfold Machine.compile
  -- Nothing here depends on what the compile computes; kept opaque, it is never unfolded.
  generalize StackScript.compile src m.heap name = r at hClean ⊢
  simp only [hClean]
  split
  · exact ⟨_, rfl, by simp [emit], by simp [emit], by rw [written_emit_listing]; rfl, by simp [emit],
      by simp [emit], by simp [emit]⟩
  · exact ⟨_, rfl, rfl, rfl, rfl, rfl, rfl, rfl⟩

/-- A new machine is canonical: its heap and its globals are empty. -/
theorem canonical_new : Machine.new.Canonical := by
  have hNone : ∀ (k : Str) (v : Value), ¬ Table.Holds Machine.new.globals k v := by
    rintro k v ⟨i, hi⟩
    simp [Machine.new, Table.empty] at hi
  exact ⟨Heap.wf_empty, Table.inv_empty, fun k v hk => absurd hk (hNone k v),
    fun k v hk => absurd hk (hNone k v)⟩

end Machine

open Compiler in
/-- A source the grammar derives, asking for at most 256 constants, compiles without error. -/
theorem compile_clean {src : Bytes} {heap : Heap} {name : String} (hHeap : heap.WF) {prog : List Decl}
    (hProg : Derives prog (Scanner.scan src).1)
    (hCount : constantCount (Scanner.scan src).1 ≤ Chunk.maxConstants) :
    (compile src heap name).failure = none := by
  have hRun := run_sim (if name.isEmpty then "<script>" else name) hHeap (Scanner.scan_terminated src)
  rw [parseProgram_complete prog _ _ hProg (Nat.le_succ _)] at hRun
  obtain ⟨rest, hReached⟩ := hRun
  have hClean := (hReached.at (by rw [programCode_pool_length hProg]; exact hCount)).hadError
  simp only [compile, hClean]
  rfl

/-- Interpreting a source the compiler accepts runs its derivation as the semantics does, from
the globals of the machine: the machine stays canonical, ends with the globals the semantics ends
with, has written the lines the semantics writes, and ends with the runtime error of the
semantics when the semantics stops with one, and without error otherwise. -/
theorem interpret_agrees_with_semantics (m : Machine) (src : Bytes) {prog : List Decl}
    (hProg : Derives prog (Scanner.scan src).1) (hClean : (compile src m.heap "").failure = none)
    (hM : m.Canonical) (hSink : m.sink = .keep) (hLimit : m.limit = 0)
    (hRoom : programNeed prog ≤ m.stackMax) :
    (m.interpret src).1.Canonical ∧ (m.interpret src).1.env = (runProgram prog m.env).env ∧
      (m.interpret src).1.written = m.written ++ (runProgram prog m.env).out ∧
      match (runProgram prog m.env).error with
      | none => (m.interpret src).2 = .ok
      | some e => ∃ f, (m.interpret src).2 = .runtimeError f ∧ f = e.fault f.frame := by
  obtain ⟨hCode, hFits, -, hConsts⟩ := compile_chunk src m.heap "" hM.heap hProg hClean
  obtain ⟨m₁, hCompile, hHeap, hGlobals, hW, hSink₁, hLimit₁, hMax⟩ := Machine.compile_ok hClean
  obtain ⟨hGrown, hEnvGrown⟩ := hM.grow (compile_grows src m.heap "")
  -- The machine after the compile runs the chunk once reset, from the globals of `m`.
  have hM₁ : m₁.Canonical := hGrown.congr hHeap hGlobals
  have hEnv₁ : m₁.env = m.env :=
    (Machine.env_congr (m := { m with heap := (compile src m.heap "").heap }) hHeap hGlobals).trans hEnvGrown
  have hR : Machine.Runs (compile src m.heap "").chunk (programCode prog []).2 m₁.reset :=
    ⟨hM₁.congr rfl rfl, by simp [Machine.reset], by simp [Machine.reset], by simpa [Machine.reset, hHeap] using hConsts,
      hFits, hLimit₁.trans hLimit, hSink₁.trans hSink⟩
  obtain ⟨hCanon, hEnv, hWritten, hEnd⟩ := hR.run_program hProg.1 hCode (hMax ▸ hRoom)
  rw [hEnv₁, hW] at *
  simp only [Machine.interpret, hCompile]
  rcases hRun : m₁.run (compile src m.heap "").chunk with ⟨m₂, r⟩
  rw [hRun] at hCanon hEnv hWritten hEnd
  cases hErr : (runProgram prog m.env).error with
  | none =>
    rw [hErr] at hEnd
    subst hEnd
    exact ⟨hCanon, hEnv, hWritten, rfl⟩
  | some e =>
    rw [hErr] at hEnd
    obtain ⟨f, rfl, hFault⟩ := hEnd
    exact ⟨hCanon, hEnv, hWritten, f, rfl, hFault⟩

/-- `info true;` on a new machine: one declaration, no constants, a stack of one. -/
theorem interpret_info_true :
    let src := Bytes.ofString "info true;"
    let prog := [Decl.info ⟨.infoKw, Bytes.ofString "info", ⟨0, 1, 1⟩⟩
      (.literal ⟨.trueKw, Bytes.ofString "true", ⟨5, 1, 6⟩⟩) ⟨.semicolon, Bytes.ofString ";", ⟨9, 1, 10⟩⟩]
    Derives prog (Scanner.scan src).1 ∧ (compile src Machine.new.heap "").failure = none ∧
      Machine.new.Canonical ∧ Machine.new.sink = .keep ∧ Machine.new.limit = 0 ∧
      programNeed prog ≤ Machine.new.stackMax ∧
      ((Machine.new.interpret src).1.Canonical ∧
        (Machine.new.interpret src).1.env = (runProgram prog Machine.new.env).env ∧
        (Machine.new.interpret src).1.written = Machine.new.written ++ (runProgram prog Machine.new.env).out ∧
        match (runProgram prog Machine.new.env).error with
        | none => (Machine.new.interpret src).2 = .ok
        | some e => ∃ f, (Machine.new.interpret src).2 = .runtimeError f ∧ f = e.fault f.frame) := by
  intro src prog
  have hProg : Derives prog (Scanner.scan src).1 :=
    ⟨by simp [prog, Decl.WF, Expr.WF], ⟨.eof, [], ⟨10, 1, 11⟩⟩, rfl, by decide +kernel⟩
  have hClean : (compile src Machine.new.heap "").failure = none :=
    compile_clean Heap.wf_empty hProg (by decide +kernel)
  exact ⟨hProg, hClean, Machine.canonical_new, rfl, rfl, by decide,
    interpret_agrees_with_semantics Machine.new src hProg hClean Machine.canonical_new rfl rfl (by decide)⟩

end StackScript
