import StackScript.Proofs.Compiler.AnyHeap
import StackScript.Proofs.Machine.Straight
import StackScript.Proofs.Machine.Safety
import StackScript.Proofs.Bytecode.Listing

/-! # Machines that run alike

Two machines whose strings live in different heaps run alike when everything else they hold is
equal and each string one of them holds has the same text as the other's at the same place, and is
the string its own heap interns for that text (`Machine.Twins`). Every comparison the machine
makes then gives one answer on both, since identity of interned strings is equality of texts
(`Value.equal_eq`); concatenation interns one text in each heap; and the globals, read by name,
agree. So one dispatch from twins running twin chunks ends in twins again, with the same outcome
and the same writes recorded (`Machine.Twins.step`), and so does a whole run (`Machine.Twins.runFor`).

What a host sees of a recorded effect is what it writes (`Effect.shown`): an output line to the
standard output, the text of a trace step or a listing to the standard error.
-/

namespace StackScript

set_option autoImplicit false

/-! ## Twin values -/

namespace Value

variable {h₁ h₂ : Heap}

/-- Twins are one value that is no object, or two strings with one text, each interned in its
own heap. -/
theorem Twin.cases {v₁ v₂ : Value} (hv : Twin h₁ h₂ v₁ v₂) :
    (v₁ = v₂ ∧ ∀ o, v₁ ≠ .obj o) ∨
      ∃ k₁ k₂ : Str, v₁ = .obj (.str k₁) ∧ v₂ = .obj (.str k₂) ∧ k₁.chars = k₂.chars ∧
        h₁.lookup? k₁.chars = some k₁ ∧ h₂.lookup? k₂.chars = some k₂ := by
  obtain ⟨hc₁, hc₂, hContent⟩ := hv
  cases v₁ with
  | obj o₁ =>
    cases o₁ with
    | foreign => exact absurd hc₁ id
    | str k₁ =>
      cases v₂ with
      | obj o₂ =>
        cases o₂ with
        | foreign => exact absurd hc₂ id
        | str k₂ =>
          simp only [content, Obj.text, Val.str.injEq] at hContent
          exact .inr ⟨k₁, k₂, rfl, rfl, hContent, hc₁, hc₂⟩
      | _ => cases hContent
  | _ =>
    -- No object stands for a content other than itself.
    refine .inl ⟨?_, fun _ h => by cases h⟩
    cases v₂ <;> simp_all [content]

theorem twin_self {v : Value} (hv : ∀ o, v ≠ .obj o) : Twin h₁ h₂ v v := by
  cases v with
  | obj o => exact absurd rfl (hv o)
  | _ => exact ⟨trivial, trivial, rfl⟩

theorem Twin.text {v₁ v₂ : Value} (hv : Twin h₁ h₂ v₁ v₂) : v₁.text = v₂.text := by
  rw [← text_content, hv.2.2, text_content]

theorem Twin.isFalsey {v₁ v₂ : Value} (hv : Twin h₁ h₂ v₁ v₂) : v₁.isFalsey = v₂.isFalsey := by
  rw [← isFalsey_content, hv.2.2, isFalsey_content]

theorem Twin.asNumber? {v₁ v₂ : Value} (hv : Twin h₁ h₂ v₁ v₂) : v₁.asNumber? = v₂.asNumber? := by
  rcases hv.cases with ⟨rfl, -⟩ | ⟨k₁, k₂, rfl, rfl, -⟩
  · rfl
  · rfl

/-- Twins compare alike: identity of interned strings is equality of their texts. -/
theorem Twin.equal (hW₁ : h₁.WF) (hW₂ : h₂.WF) {a₁ a₂ b₁ b₂ : Value} (ha : Twin h₁ h₂ a₁ a₂)
    (hb : Twin h₁ h₂ b₁ b₂) : a₁.equal b₁ = a₂.equal b₂ := by
  rw [equal_eq hW₁ ha.1 hb.1, equal_eq hW₂ ha.2.1 hb.2.1, ha.2.2, hb.2.2]

end Value

/-! ## Stacks of twins -/

section Stacks

variable {h₁ h₂ : Heap}

theorem Forall₂.twin_getD {l₁ l₂ : List Value} (h : List.Forall₂ (Value.Twin h₁ h₂) l₁ l₂) (i : Nat) :
    (l₁.getD i .nil).Twin h₁ h₂ (l₂.getD i .nil) := by
  induction h generalizing i with
  | nil => exact Value.twin_self fun _ h => by cases h
  | cons hv _ ih =>
    cases i with
    | zero => exact hv
    | succ i => exact ih i

theorem Forall₂.twin_set {l₁ l₂ : List Value} (h : List.Forall₂ (Value.Twin h₁ h₂) l₁ l₂) (i : Nat)
    {v₁ v₂ : Value} (hv : v₁.Twin h₁ h₂ v₂) : List.Forall₂ (Value.Twin h₁ h₂) (l₁.set i v₁) (l₂.set i v₂) := by
  induction h generalizing i with
  | nil => exact .nil
  | cons hw _ ih =>
    cases i with
    | zero => exact .cons hv ‹_›
    | succ i => exact .cons hw (ih i)

/-- Twin stacks print alike. -/
theorem Forall₂.map_text {β : Type} {l₁ l₂ : List Value} (h : List.Forall₂ (Value.Twin h₁ h₂) l₁ l₂)
    (f : Bytes → β) : l₁.map (fun v => f v.text) = l₂.map (fun v => f v.text) := by
  induction h with
  | nil => rfl
  | cons hv _ ih => rw [List.map_cons, List.map_cons, hv.text, ih]

theorem Forall₂.twin_grow {h₁' h₂' : Heap} (hG₁ : h₁.Grows h₁') (hW₁ : h₁.WF) (hG₂ : h₂.Grows h₂')
    (hW₂ : h₂.WF) {l₁ l₂ : List Value} (h : List.Forall₂ (Value.Twin h₁ h₂) l₁ l₂) :
    List.Forall₂ (Value.Twin h₁' h₂') l₁ l₂ :=
  h.imp fun _ _ hv => hv.grow hG₁ hW₁ hG₂ hW₂

end Stacks

/-! ## Twin chunks -/

namespace Chunk.Twin

variable {h₁ h₂ : Heap} {c₁ c₂ : Chunk}

theorem size (hc : Chunk.Twin h₁ h₂ c₁ c₂) : c₁.code.size = c₂.code.size := by rw [hc.code]

theorem lineAt (hc : Chunk.Twin h₁ h₂ c₁ c₂) (o : Int) : c₁.lineAt o = c₂.lineAt o := by
  simp only [Chunk.lineAt, hc.lines]

theorem constant? (hc : Chunk.Twin h₁ h₂ c₁ c₂) (i : Int) :
    Option.Rel (Value.Twin h₁ h₂) (c₁.constant? i) (c₂.constant? i) := by
  unfold Chunk.constant?
  split
  · exact .none
  · rw [← Array.getElem?_toList, ← Array.getElem?_toList]
    have hLen := hc.constants.length_eq
    by_cases hi : i.toNat < c₁.constants.toList.length
    · rw [List.getElem?_eq_getElem hi, List.getElem?_eq_getElem (hLen ▸ hi)]
      exact .some (hc.constants.get hi (hLen ▸ hi))
    · rw [List.getElem?_eq_none (by omega), List.getElem?_eq_none (by omega)]
      exact .none

theorem grow {h₁' h₂' : Heap} (hc : Chunk.Twin h₁ h₂ c₁ c₂) (hG₁ : h₁.Grows h₁') (hW₁ : h₁.WF)
    (hG₂ : h₂.Grows h₂') (hW₂ : h₂.WF) : Chunk.Twin h₁' h₂' c₁ c₂ :=
  ⟨hc.name, hc.code, hc.lines, Forall₂.twin_grow hG₁ hW₁ hG₂ hW₂ hc.constants⟩

/-- Twin chunks list alike: only the text of a constant reads the pool. -/
theorem instruction (hc : Chunk.Twin h₁ h₂ c₁ c₂) (o : Int) :
    Listing.instruction c₁ o = Listing.instruction c₂ o := by
  -- The listing reads the pool only through the text it shows for a constant.
  have hShown : ∀ x, Listing.shown c₁ x = Listing.shown c₂ x := fun x => by
    have h := hc.constant? x.toNat
    unfold Listing.shown
    generalize c₁.constant? x.toNat = a at h ⊢
    generalize c₂.constant? x.toNat = b at h ⊢
    cases h with
    | none => rfl
    | some hv => exact hv.text
  obtain ⟨n₁, code, lines, k₁⟩ := c₁
  obtain ⟨n₂, code₂, lines₂, k₂⟩ := c₂
  obtain ⟨-, hCode, hLines, -⟩ := hc
  dsimp only at hCode hLines
  subst hCode hLines
  by_cases hIn : 0 ≤ o ∧ o < code.size
  · -- Within the code, both list the row of the instruction, which reads the code and the lines.
    obtain ⟨d, rfl⟩ := Int.eq_ofNat_of_zero_le hIn.1
    have hd : d < code.size := by omega
    rw [Listing.instruction_of_lt (c := ⟨n₁, code, lines, k₁⟩) hd,
      Listing.instruction_of_lt (c := ⟨n₂, code, lines, k₂⟩) hd]
    simp only [Listing.row, Listing.repeatsByte, Chunk.cutAt, Chunk.lineAt, hShown]
    rfl
  · have hOut : (o < 0 || o ≥ code.size) = true := by simp; omega
    simp only [Listing.instruction, hOut, if_true]

theorem instructionsFrom (hc : Chunk.Twin h₁ h₂ c₁ c₂) :
    ∀ (fuel : Nat) (o : Int), Listing.instructionsFrom c₁ fuel o = Listing.instructionsFrom c₂ fuel o
  | 0, _ => rfl
  | fuel + 1, o => by
    simp only [Listing.instructionsFrom, hc.size, hc.instruction, hc.instructionsFrom fuel]

theorem chunkSection (hc : Chunk.Twin h₁ h₂ c₁ c₂) (name : String) (started : Bool) :
    Listing.chunkSection c₁ name started = Listing.chunkSection c₂ name started := by
  simp only [Listing.chunkSection, hc.name, hc.size, hc.instructionsFrom]

end Chunk.Twin

/-! ## What a host sees of effects -/

/-- What an effect writes, and where, as a host flushes a machine's log: an output line to the
standard output (`inl`), the text of a trace step or a listing to the standard error (`inr`). -/
def Effect.shown : Effect → Bytes ⊕ Bytes
  | .output b => .inl b
  | .trace t => .inr t.render
  | .listing b => .inr b

/-! ## Twin machines -/

namespace Machine

/-- A machine without its values: its settings and the registers of a run. -/
def registers (m : Machine) : Machine :=
  { m with stack := #[], globals := Table.empty, heap := Heap.empty, log := #[] }

/-- Two machines that run alike: the same settings and registers, globals that read alike by
name and stacks of twin values, each machine canonical. -/
structure Twins (m₁ m₂ : Machine) : Prop where
  registers : m₁.registers = m₂.registers
  canonical₁ : m₁.Canonical
  canonical₂ : m₂.Canonical
  env : m₁.env = m₂.env
  stack : List.Forall₂ (Value.Twin m₁.heap m₂.heap) m₁.stack.toList m₂.stack.toList

/-- Machines that recorded, since `m₁` and `m₂`, effects that a host writes alike. -/
def Echoes (m₁ m₂ r₁ r₂ : Machine) : Prop :=
  ∃ E₁ E₂ : List Effect, r₁.log.toList = m₁.log.toList ++ E₁ ∧ r₂.log.toList = m₂.log.toList ++ E₂ ∧
    E₁.map Effect.shown = E₂.map Effect.shown

/-- How two runs of twin chunks from `m₁` and `m₂` end alike: in twins that still hold the chunks
as twins, with one answer and the same writes recorded on the way. -/
structure Lockstep {α : Type} (c₁ c₂ : Chunk) (m₁ m₂ : Machine) (r₁ r₂ : Machine × α) : Prop where
  twins : Twins r₁.1 r₂.1
  chunk : Chunk.Twin r₁.1.heap r₂.1.heap c₁ c₂
  answer : r₁.2 = r₂.2
  echoes : Echoes m₁ m₂ r₁.1 r₂.1

variable {m₁ m₂ r₁ r₂ q₁ q₂ : Machine} {c₁ c₂ : Chunk}

theorem Echoes.of_log (h₁ : r₁.log = m₁.log) (h₂ : r₂.log = m₂.log) : Echoes m₁ m₂ r₁ r₂ :=
  ⟨[], [], by rw [h₁, List.append_nil], by rw [h₂, List.append_nil], rfl⟩

theorem Echoes.trans (h : Echoes m₁ m₂ r₁ r₂) (h' : Echoes r₁ r₂ q₁ q₂) : Echoes m₁ m₂ q₁ q₂ := by
  obtain ⟨E₁, E₂, h₁, h₂, hE⟩ := h
  obtain ⟨F₁, F₂, g₁, g₂, hF⟩ := h'
  exact ⟨E₁ ++ F₁, E₂ ++ F₂, by rw [g₁, h₁, List.append_assoc], by rw [g₂, h₂, List.append_assoc],
    by rw [List.map_append, List.map_append, hE, hF]⟩

/-- Recording effects that a host writes alike keeps the writes alike. -/
theorem Echoes.emit (h : Echoes m₁ m₂ r₁ r₂) {e₁ e₂ : Effect} (he : e₁.shown = e₂.shown) :
    Echoes m₁ m₂ (r₁.emit e₁) (r₂.emit e₂) :=
  h.trans ⟨[e₁], [e₂], by simp [Machine.emit], by simp [Machine.emit], by simp [he]⟩

/-- Twins that neither grew their heaps nor recorded anything end alike with one answer. -/
theorem Lockstep.stay {α : Type} {a : α} (hT : Twins r₁ r₂) (hc : Chunk.Twin m₁.heap m₂.heap c₁ c₂)
    (hH₁ : r₁.heap = m₁.heap) (hH₂ : r₂.heap = m₂.heap) (hL₁ : r₁.log = m₁.log) (hL₂ : r₂.log = m₂.log) :
    Lockstep c₁ c₂ m₁ m₂ (r₁, a) (r₂, a) :=
  ⟨hT, by rw [hH₁, hH₂]; exact hc, rfl, Echoes.of_log hL₁ hL₂⟩

theorem Lockstep.trans {α β : Type} {p₁ p₂ : Machine × α} {q₁ q₂ : Machine × β}
    (h : Lockstep c₁ c₂ m₁ m₂ p₁ p₂) (h' : Lockstep c₁ c₂ p₁.1 p₂.1 q₁ q₂) : Lockstep c₁ c₂ m₁ m₂ q₁ q₂ :=
  ⟨h'.twins, h'.chunk, h'.answer, h.echoes.trans h'.echoes⟩

section Globals

variable {m m' : Machine} {c : Chunk}

/-- An instruction that names a global fails with the error of reading the name. -/
theorem execute_of_readName_error {f : Fault} (h : m.readName c = (m', .error f)) {op : Op}
    (hop : op = .getGlobal ∨ op = .setGlobal ∨ op = .defineGlobal) : m.execute c op = (m', .fault f) := by
  rcases hop with rfl | rfl | rfl <;> simp only [Machine.execute, h]

theorem execute_getGlobal_of_name {k : Str} (h : m.readName c = (m', .ok k)) :
    m.execute c .getGlobal =
      (m'.globals.get? k).elim (m', .fault (m'.undefined c k)) fun v => (m'.push v, .proceed) := by
  simp only [Machine.execute, h]
  cases m'.globals.get? k <;> rfl

theorem execute_setGlobal_of_name {k : Str} (h : m.readName c = (m', .ok k)) :
    m.execute c .setGlobal =
      if (m'.globals.insert k (m'.peek 0)).2 then
        ({ m' with globals := (m'.globals.insert k (m'.peek 0)).1 }, .proceed)
      else ({ m' with globals := ((m'.globals.insert k (m'.peek 0)).1.erase k).1 }, .fault (m'.undefined c k)) := by
  simp only [Machine.execute, h]

theorem execute_defineGlobal_of_name {k : Str} (h : m.readName c = (m', .ok k)) :
    m.execute c .defineGlobal = ({ m' with globals := (m'.globals.insert k (m'.peek 0)).1 }.pop.1, .proceed) := by
  simp only [Machine.execute, h]

end Globals

theorem Lockstep.of_echoes {α : Type} {p₁ p₂ : Machine × α} (hE : Echoes m₁ m₂ r₁ r₂)
    (h : Lockstep c₁ c₂ r₁ r₂ p₁ p₂) : Lockstep c₁ c₂ m₁ m₂ p₁ p₂ :=
  ⟨h.twins, h.chunk, h.answer, hE.trans h.echoes⟩

/-- A run from twins that differ from `m₁`, `m₂` only in registers ends as the run from `m₁`, `m₂`
would. -/
theorem Lockstep.of_echoes' {α : Type} {p₁ p₂ : Machine × α} (h : Lockstep c₁ c₂ r₁ r₂ p₁ p₂)
    (h₁ : r₁.log = m₁.log) (h₂ : r₂.log = m₂.log) : Lockstep c₁ c₂ m₁ m₂ p₁ p₂ :=
  .of_echoes (Echoes.of_log h₁ h₂) h

/-- Runs in lockstep end in two machines with one answer. -/
theorem Lockstep.split {α : Type} {p₁ p₂ : Machine × α} (h : Lockstep c₁ c₂ m₁ m₂ p₁ p₂) :
    ∃ r₁ r₂ a, p₁ = (r₁, a) ∧ p₂ = (r₂, a) ∧ Twins r₁ r₂ ∧ Chunk.Twin r₁.heap r₂.heap c₁ c₂ ∧
      Echoes m₁ m₂ r₁ r₂ :=
  ⟨p₁.1, p₂.1, p₁.2, rfl, by rw [h.answer], h.twins, h.chunk, h.echoes⟩

theorem numbers_eq (m : Machine) :
    m.numbers = (m.peek 1).asNumber?.bind fun a => (m.peek 0).asNumber?.map fun b => (a, b) := by
  unfold Machine.numbers
  cases m.peek 1 <;> cases m.peek 0 <;> rfl

namespace Twins

theorem ip (hT : Twins m₁ m₂) : m₁.ip = m₂.ip := (congrArg Machine.ip hT.registers :)

theorem lastOp (hT : Twins m₁ m₂) : m₁.lastOp = m₂.lastOp := (congrArg Machine.lastOp hT.registers :)

theorem count (hT : Twins m₁ m₂) : m₁.count = m₂.count := (congrArg Machine.count hT.registers :)

theorem limit (hT : Twins m₁ m₂) : m₁.limit = m₂.limit := (congrArg Machine.limit hT.registers :)

theorem sink (hT : Twins m₁ m₂) : m₁.sink = m₂.sink := (congrArg Machine.sink hT.registers :)

theorem tracing (hT : Twins m₁ m₂) : m₁.tracing = m₂.tracing := (congrArg Machine.tracing hT.registers :)

theorem printCode (hT : Twins m₁ m₂) : m₁.printCode = m₂.printCode :=
  (congrArg Machine.printCode hT.registers :)

theorem stackMax (hT : Twins m₁ m₂) : m₁.stackMax = m₂.stackMax :=
  (congrArg Machine.stackMax hT.registers :)

theorem size (hT : Twins m₁ m₂) : m₁.stack.size = m₂.stack.size := by
  rw [← Array.length_toList, ← Array.length_toList]
  exact hT.stack.length_eq

theorem waiting (hT : Twins m₁ m₂) : m₁.waiting = m₂.waiting := (congrArg Machine.waiting hT.registers :)

/-- Twins differ only in their values: their stacks, globals, heaps and logs. -/
theorem eq_with (hT : Twins m₁ m₂) :
    m₁ = { m₂ with stack := m₁.stack, globals := m₁.globals, heap := m₁.heap, log := m₁.log } := by
  have h := hT.registers
  cases m₁
  cases m₂
  simp only [Machine.registers, Machine.mk.injEq, true_and, and_true] at h ⊢
  exact h

/-- Machines with the globals and heaps of twins are twins when their registers agree and their
stacks are twins. -/
theorem restack (hT : Twins m₁ m₂) (hH₁ : r₁.heap = m₁.heap) (hG₁ : r₁.globals = m₁.globals)
    (hH₂ : r₂.heap = m₂.heap) (hG₂ : r₂.globals = m₂.globals) (hR : r₁.registers = r₂.registers)
    (hS : List.Forall₂ (Value.Twin r₁.heap r₂.heap) r₁.stack.toList r₂.stack.toList) : Twins r₁ r₂ :=
  ⟨hR, hT.canonical₁.congr hH₁ hG₁, hT.canonical₂.congr hH₂ hG₂,
    (env_congr hH₁ hG₁).trans (hT.env.trans (env_congr hH₂ hG₂).symm), hS⟩

theorem emit (hT : Twins m₁ m₂) (e₁ e₂ : Effect) : Twins (m₁.emit e₁) (m₂.emit e₂) :=
  hT.restack rfl rfl rfl rfl hT.registers hT.stack

theorem push (hT : Twins m₁ m₂) {v₁ v₂ : Value} (hv : v₁.Twin m₁.heap m₂.heap v₂) :
    Twins (m₁.push v₁) (m₂.push v₂) := by
  refine hT.restack rfl rfl rfl rfl hT.registers ?_
  simp only [Machine.push, Array.toList_push]
  exact List.rel_append hT.stack (.cons hv .nil)

theorem peek (hT : Twins m₁ m₂) (d : Nat) : (m₁.peek d).Twin m₁.heap m₂.heap (m₂.peek d) := by
  unfold Machine.peek
  rw [hT.size]
  split
  · simp only [Array.getD_eq_getD_getElem?, ← Array.getElem?_toList, ← List.getD_eq_getElem?_getD]
    exact Forall₂.twin_getD hT.stack _
  · exact Value.twin_self fun _ h => by cases h

theorem pop (hT : Twins m₁ m₂) : Twins m₁.pop.1 m₂.pop.1 ∧ m₁.pop.2.Twin m₁.heap m₂.heap m₂.pop.2 := by
  refine ⟨hT.restack rfl rfl rfl rfl hT.registers ?_, ?_⟩
  · simp only [Machine.pop, Array.toList_pop, List.dropLast_eq_take, hT.stack.length_eq]
    exact List.forall₂_take _ hT.stack
  · have h := hT.peek 0
    rwa [peek_zero, peek_zero] at h

theorem operand (hT : Twins m₁ m₂) (hc : Chunk.Twin m₁.heap m₂.heap c₁ c₂) :
    Twins (m₁.operand c₁).1 (m₂.operand c₂).1 ∧ (m₁.operand c₁).2 = (m₂.operand c₂).2 := by
  rw [operand_eq, operand_eq, hc.code, hT.ip]
  exact ⟨hT.restack rfl rfl rfl rfl (congrArg (fun r => { r with ip := m₂.ip + 1 }) hT.registers) hT.stack,
    rfl⟩

/-- Twins fail at one frame. -/
theorem fault (hT : Twins m₁ m₂) (hc : Chunk.Twin m₁.heap m₂.heap c₁ c₂) (kind : FaultKind)
    (message : String) (cause : Option String) :
    m₁.fault c₁ kind message cause = m₂.fault c₂ kind message cause := by
  simp only [Machine.fault, hT.lastOp, hc.name, hc.lineAt]

/-- Reading a constant of twin chunks gives twin values, or one error. -/
theorem readConstant (hT : Twins m₁ m₂) (hc : Chunk.Twin m₁.heap m₂.heap c₁ c₂) :
    Twins (m₁.readConstant c₁).1 (m₂.readConstant c₂).1 ∧
      ((∃ v₁ v₂, (m₁.readConstant c₁).2 = .ok v₁ ∧ (m₂.readConstant c₂).2 = .ok v₂ ∧
          v₁.Twin m₁.heap m₂.heap v₂) ∨
        ∃ f, (m₁.readConstant c₁).2 = .error f ∧ (m₂.readConstant c₂).2 = .error f) := by
  obtain ⟨hT', -⟩ := hT.operand hc
  refine ⟨by rw [readConstant_fst, readConstant_fst]; exact hT', ?_⟩
  simp only [Machine.readConstant, Machine.operand, hc.code, hT.ip]
  have h := hc.constant? ((c₂.code.getD m₂.ip 0).toNat : Int)
  generalize c₁.constant? _ = a at h ⊢
  generalize c₂.constant? _ = b at h ⊢
  cases h with
  | none =>
    refine .inr ⟨_, rfl, ?_⟩
    simp only [Machine.fault, hT.lastOp, hc.name, hc.lineAt]
  | some hv => exact .inl ⟨_, _, rfl, rfl, hv⟩

/-- Reading a global's name from twin chunks gives the strings the two heaps intern for one
text, or one error. -/
theorem readName (hT : Twins m₁ m₂) (hc : Chunk.Twin m₁.heap m₂.heap c₁ c₂) :
    Twins (m₁.readName c₁).1 (m₂.readName c₂).1 ∧
      ((∃ k₁ k₂ : Str, (m₁.readName c₁).2 = .ok k₁ ∧ (m₂.readName c₂).2 = .ok k₂ ∧
          k₁.chars = k₂.chars ∧ m₁.heap.lookup? k₁.chars = some k₁ ∧ m₂.heap.lookup? k₂.chars = some k₂) ∨
        ∃ f, (m₁.readName c₁).2 = .error f ∧ (m₂.readName c₂).2 = .error f) := by
  obtain ⟨hT', hR⟩ := hT.readConstant hc
  refine ⟨by rw [readName_fst, readName_fst]; exact (hT.operand hc).1, ?_⟩
  obtain ⟨r₁, h₁⟩ := readConstant_eq m₁ c₁
  obtain ⟨r₂, h₂⟩ := readConstant_eq m₂ c₂
  rw [h₁, h₂] at hT' hR
  simp only [Machine.readName, h₁, h₂]
  rcases hR with ⟨v₁, v₂, hr₁, hr₂, hv⟩ | ⟨f, hr₁, hr₂⟩
  · subst hr₁ hr₂
    rcases hv.cases with ⟨rfl, hNo⟩ | ⟨k₁, k₂, rfl, rfl, hChars, hl₁, hl₂⟩
    · -- A constant that is no string names no global, on both machines.
      have hNone : v₁.asStr? = none := by
        cases v₁ with
        | obj o => exact absurd rfl (hNo o)
        | _ => rfl
      simp only [hNone]
      exact .inr ⟨_, rfl, by simp only [Machine.fault, hT.lastOp, hc.name, hc.lineAt]⟩
    · exact .inl ⟨k₁, k₂, rfl, rfl, hChars, hl₁, hl₂⟩
  · subst hr₁ hr₂
    exact .inr ⟨f, rfl, rfl⟩

/-- Twins find twin values under a name in their globals, or nothing in both. -/
theorem get? (hT : Twins m₁ m₂) {x : Bytes} {k₁ k₂ : Str} (hl₁ : m₁.heap.lookup? x = some k₁)
    (hl₂ : m₂.heap.lookup? x = some k₂) :
    Option.Rel (Value.Twin m₁.heap m₂.heap) (m₁.globals.get? k₁) (m₂.globals.get? k₂) := by
  have hEnv := congrFun hT.env x
  rw [hT.canonical₁.env_of_lookup hl₁, hT.canonical₂.env_of_lookup hl₂] at hEnv
  rw [hT.canonical₁.get?_eq hl₁, hT.canonical₂.get?_eq hl₂]
  cases h₁ : m₁.globals.lookup k₁ with
  | none =>
    rw [h₁, Option.map_none, eq_comm, Option.map_eq_none_iff] at hEnv
    rw [hEnv]
    exact .none
  | some v₁ =>
    rw [h₁, Option.map_some, eq_comm, Option.map_eq_some_iff] at hEnv
    obtain ⟨v₂, h₂, hContent⟩ := hEnv
    rw [h₂]
    -- Every value of canonical globals is canonical.
    obtain ⟨k₁', -, hHolds₁⟩ := hT.canonical₁.globals.lookup_eq_some_iff.mp h₁
    obtain ⟨k₂', -, hHolds₂⟩ := hT.canonical₂.globals.lookup_eq_some_iff.mp h₂
    exact .some ⟨hT.canonical₁.values k₁' v₁ hHolds₁, hT.canonical₂.values k₂' v₂ hHolds₂, hContent.symm⟩

/-- Binding one name to twin values keeps twins twins, and finds the name bound in both or in
neither. -/
theorem insert (hT : Twins m₁ m₂) {x : Bytes} {k₁ k₂ : Str} (hl₁ : m₁.heap.lookup? x = some k₁)
    (hl₂ : m₂.heap.lookup? x = some k₂) {v₁ v₂ : Value} (hv : v₁.Twin m₁.heap m₂.heap v₂) :
    Twins { m₁ with globals := (m₁.globals.insert k₁ v₁).1 } { m₂ with globals := (m₂.globals.insert k₂ v₂).1 } ∧
      (m₁.globals.insert k₁ v₁).2 = (m₂.globals.insert k₂ v₂).2 := by
  obtain ⟨hM₁, hEnv₁, hAns₁⟩ := hT.canonical₁.insert hl₁ hv.1
  obtain ⟨hM₂, hEnv₂, hAns₂⟩ := hT.canonical₂.insert hl₂ hv.2.1
  exact ⟨⟨hT.registers, hM₁, hM₂, by rw [hEnv₁, hEnv₂, hT.env, hv.2.2], hT.stack⟩,
    by rw [hAns₁, hAns₂, hT.env]⟩

/-- Undoing the binding of an unbound name keeps twins twins. -/
theorem erase (hT : Twins m₁ m₂) {x : Bytes} {k₁ k₂ : Str} (hl₁ : m₁.heap.lookup? x = some k₁)
    (hl₂ : m₂.heap.lookup? x = some k₂) {v₁ v₂ : Value} (hv : v₁.Twin m₁.heap m₂.heap v₂)
    (hUnbound : m₁.env x = none) :
    Twins { m₁ with globals := ((m₁.globals.insert k₁ v₁).1.erase k₁).1 }
      { m₂ with globals := ((m₂.globals.insert k₂ v₂).1.erase k₂).1 } := by
  obtain ⟨hM₁, hEnv₁⟩ := hT.canonical₁.erase hl₁ hv.1 hUnbound
  obtain ⟨hM₂, hEnv₂⟩ := hT.canonical₂.erase hl₂ hv.2.1 (hT.env ▸ hUnbound)
  exact ⟨hT.registers, hM₁, hM₂, by rw [hEnv₁, hEnv₂, hT.env], hT.stack⟩

/-- Growing both heaps keeps twins twins. -/
theorem grow (hT : Twins m₁ m₂) {h₁ h₂ : Heap} (hG₁ : m₁.heap.Grows h₁) (hG₂ : m₂.heap.Grows h₂) :
    Twins { m₁ with heap := h₁ } { m₂ with heap := h₂ } := by
  obtain ⟨hM₁, hEnv₁⟩ := hT.canonical₁.grow hG₁
  obtain ⟨hM₂, hEnv₂⟩ := hT.canonical₂.grow hG₂
  exact ⟨hT.registers, hM₁, hM₂, by rw [hEnv₁, hEnv₂, hT.env],
    Forall₂.twin_grow hG₁ hT.canonical₁.heap hG₂ hT.canonical₂.heap hT.stack⟩

theorem numbers (hT : Twins m₁ m₂) : m₁.numbers = m₂.numbers := by
  rw [numbers_eq, numbers_eq, (hT.peek 1).asNumber?, (hT.peek 0).asNumber?]

/-- Twins report one undefined name alike. -/
theorem undefined (hT : Twins m₁ m₂) (hc : Chunk.Twin m₁.heap m₂.heap c₁ c₂) {k₁ k₂ : Str}
    (hChars : k₁.chars = k₂.chars) : m₁.undefined c₁ k₁ = m₂.undefined c₂ k₂ := by
  simp only [Machine.undefined, hT.fault hc, hChars]

/-! ### One instruction -/

theorem execute_constant (hT : Twins m₁ m₂) (hc : Chunk.Twin m₁.heap m₂.heap c₁ c₂) :
    Lockstep c₁ c₂ m₁ m₂ (m₁.execute c₁ .constant) (m₂.execute c₂ .constant) := by
  obtain ⟨hT', hR⟩ := hT.readConstant hc
  obtain ⟨r₁, h₁⟩ := readConstant_eq m₁ c₁
  obtain ⟨r₂, h₂⟩ := readConstant_eq m₂ c₂
  rw [h₁, h₂] at hT' hR
  simp only [Machine.execute, h₁, h₂]
  rcases hR with ⟨v₁, v₂, rfl, rfl, hv⟩ | ⟨f, rfl, rfl⟩
  · exact .stay (hT'.push hv) hc rfl rfl rfl rfl
  · exact .stay hT' hc rfl rfl rfl rfl

theorem execute_equal (hT : Twins m₁ m₂) (hc : Chunk.Twin m₁.heap m₂.heap c₁ c₂) :
    Lockstep c₁ c₂ m₁ m₂ (m₁.execute c₁ .equal) (m₂.execute c₂ .equal) := by
  obtain ⟨hT₁, hb⟩ := hT.pop
  obtain ⟨hT₂, ha⟩ := hT₁.pop
  have hEq := Value.Twin.equal hT.canonical₁.heap hT.canonical₂.heap ha hb
  exact .stay (hT₂.push ⟨trivial, trivial, congrArg Val.bool hEq⟩) hc rfl rfl rfl rfl

/-- Joining twin strings interns one text in each heap. -/
theorem concat (hT : Twins m₁ m₂) (hc : Chunk.Twin m₁.heap m₂.heap c₁ c₂) {a₁ a₂ b₁ b₂ : Str}
    (hA : a₁.chars = a₂.chars) (hB : b₁.chars = b₂.chars) :
    Lockstep c₁ c₂ m₁ m₂
      (({ m₁.pop.1.pop.1 with heap := (m₁.heap.concat a₁ b₁).1 }).push (.obj (.str (m₁.heap.concat a₁ b₁).2)),
        Outcome.proceed)
      (({ m₂.pop.1.pop.1 with heap := (m₂.heap.concat a₂ b₂).1 }).push (.obj (.str (m₂.heap.concat a₂ b₂).2)),
        Outcome.proceed) := by
  have hText : a₂.chars ++ b₂.chars = a₁.chars ++ b₁.chars := by rw [hA, hB]
  have hG₁ : m₁.heap.Grows (m₁.heap.concat a₁ b₁).1 := Heap.grows_intern _ _
  have hG₂ : m₂.heap.Grows (m₂.heap.concat a₂ b₂).1 := Heap.grows_intern _ _
  have hl₁ : (m₁.heap.concat a₁ b₁).1.lookup? (a₁.chars ++ b₁.chars) = some (m₁.heap.concat a₁ b₁).2 := by
    rw [Heap.concat, (hT.canonical₁.heap.intern _).2.1, if_pos rfl]
  have hl₂ : (m₂.heap.concat a₂ b₂).1.lookup? (a₁.chars ++ b₁.chars) = some (m₂.heap.concat a₂ b₂).2 := by
    rw [Heap.concat, hText, (hT.canonical₂.heap.intern _).2.1, if_pos rfl]
  exact ⟨(hT.pop.1.pop.1.grow hG₁ hG₂).push (Value.twin_of_lookup hl₁ hl₂),
    hc.grow hG₁ hT.canonical₁.heap hG₂ hT.canonical₂.heap, rfl, Echoes.of_log rfl rfl⟩

/-- Adding twins: two strings intern one text in each heap, two numbers give one sum, and
anything else fails alike. -/
theorem execute_add (hT : Twins m₁ m₂) (hc : Chunk.Twin m₁.heap m₂.heap c₁ c₂) :
    Lockstep c₁ c₂ m₁ m₂ (m₁.execute c₁ .add) (m₂.execute c₂ .add) := by
  have hFault := hT.fault hc
  rcases (hT.peek 1).cases with ⟨h1, hNo1⟩ | ⟨a₁, a₂, ha₁, ha₂, hA, -⟩ <;>
    rcases (hT.peek 0).cases with ⟨h0, hNo0⟩ | ⟨b₁, b₂, hb₁, hb₂, hB, -⟩
  · -- No objects: one value each, so one branch on both machines.
    simp only [Machine.execute, h1, h0, hFault]
    rw [h1] at hNo1
    split
    · exact absurd ‹_› (hNo1 _)
    · exact .stay ((hT.pop.1.pop.1).push (Value.twin_self fun _ h => by cases h)) hc rfl rfl rfl rfl
    · exact .stay hT hc rfl rfl rfl rfl
  · simp only [Machine.execute, h1, hb₁, hb₂, hFault]
    rw [h1] at hNo1
    cases hv : m₂.peek 1 with
    | obj o => exact absurd hv (hNo1 o)
    | _ => exact .stay hT hc rfl rfl rfl rfl
  · simp only [Machine.execute, ha₁, ha₂, h0, hFault]
    rw [h0] at hNo0
    cases hv : m₂.peek 0 with
    | obj o => exact absurd hv (hNo0 o)
    | _ => exact .stay hT hc rfl rfl rfl rfl
  · simp only [Machine.execute, ha₁, ha₂, hb₁, hb₂]
    exact hT.concat hc hA hB

theorem execute_negate (hT : Twins m₁ m₂) (hc : Chunk.Twin m₁.heap m₂.heap c₁ c₂) :
    Lockstep c₁ c₂ m₁ m₂ (m₁.execute c₁ .negate) (m₂.execute c₂ .negate) := by
  rcases (hT.peek 0).cases with ⟨h0, -⟩ | ⟨k₁, k₂, h₁, h₂, -⟩
  · simp only [Machine.execute, h0, hT.fault hc]
    split
    · exact .stay (hT.pop.1.push (Value.twin_self fun _ h => by cases h)) hc rfl rfl rfl rfl
    · exact .stay hT hc rfl rfl rfl rfl
  · simp only [Machine.execute, h₁, h₂, hT.fault hc]
    exact .stay hT hc rfl rfl rfl rfl

/-- Printing twins writes one line, or fails, or holds it, alike. -/
theorem execute_info (hT : Twins m₁ m₂) (hc : Chunk.Twin m₁.heap m₂.heap c₁ c₂) :
    Lockstep c₁ c₂ m₁ m₂ (m₁.execute c₁ .info) (m₂.execute c₂ .info) := by
  obtain ⟨hT', hv⟩ := hT.pop
  have hText := hv.text
  have hSink : m₁.pop.1.sink = m₂.pop.1.sink := hT.sink
  simp only [Machine.execute, hSink, hT'.fault hc]
  cases m₂.pop.1.sink with
  | keep =>
    exact ⟨hT'.emit _ _, hc, rfl, (Echoes.of_log rfl rfl).emit (by simp only [Effect.shown, hText])⟩
  | discard => exact .stay hT' hc rfl rfl rfl rfl
  | failing => exact .stay hT' hc rfl rfl rfl rfl
  | held =>
    -- The held line is one text, and every other register is the twins' own.
    refine .stay (hT'.restack rfl rfl rfl rfl ?_ hT'.stack) hc rfl rfl rfl rfl
    simp only [Machine.registers, hT'.stackMax, hT'.tracing, hT'.printCode, hT'.limit, hT'.ip, hT'.lastOp,
      hT'.count, hText]

theorem execute_getLocal_eq (m : Machine) (c : Chunk) :
    m.execute c .getLocal =
      if h : (c.code.getD m.ip 0).toNat < m.stack.size then
        ({ m with ip := m.ip + 1 }.push m.stack[(c.code.getD m.ip 0).toNat], .proceed)
      else ({ m with ip := m.ip + 1 }, .fault ({ m with ip := m.ip + 1 }.fault c .invalidOperand
        ("Local slot " ++ toString (c.code.getD m.ip 0).toNat ++ " out of range.") none)) := rfl

theorem execute_setLocal_eq (m : Machine) (c : Chunk) :
    m.execute c .setLocal =
      if (c.code.getD m.ip 0).toNat < m.stack.size then
        ({ m with ip := m.ip + 1, stack := m.stack.setIfInBounds (c.code.getD m.ip 0).toNat (m.peek 0) },
          .proceed)
      else ({ m with ip := m.ip + 1 }, .fault ({ m with ip := m.ip + 1 }.fault c .invalidOperand
        ("Local slot " ++ toString (c.code.getD m.ip 0).toNat ++ " out of range.") none)) := rfl

theorem execute_getLocal (hT : Twins m₁ m₂) (hc : Chunk.Twin m₁.heap m₂.heap c₁ c₂) :
    Lockstep c₁ c₂ m₁ m₂ (m₁.execute c₁ .getLocal) (m₂.execute c₂ .getLocal) := by
  obtain ⟨hT', hSlot⟩ := hT.operand hc
  simp only [operand_eq] at hT' hSlot
  rw [execute_getLocal_eq, execute_getLocal_eq, hT'.fault hc, hSlot]
  by_cases hi : (c₂.code.getD m₂.ip 0).toNat < m₂.stack.size
  · have hi₁ : (c₂.code.getD m₂.ip 0).toNat < m₁.stack.size := hT.size ▸ hi
    rw [dif_pos hi₁, dif_pos hi]
    have hv := hT.stack.get (i := (c₂.code.getD m₂.ip 0).toNat) (by simpa using hi₁) (by simpa using hi)
    simp only [List.get_eq_getElem, Array.getElem_toList] at hv
    exact .stay (hT'.push hv) hc rfl rfl rfl rfl
  · rw [dif_neg (hT.size ▸ hi), dif_neg hi]
    exact .stay hT' hc rfl rfl rfl rfl

theorem execute_setLocal (hT : Twins m₁ m₂) (hc : Chunk.Twin m₁.heap m₂.heap c₁ c₂) :
    Lockstep c₁ c₂ m₁ m₂ (m₁.execute c₁ .setLocal) (m₂.execute c₂ .setLocal) := by
  obtain ⟨hT', hSlot⟩ := hT.operand hc
  simp only [operand_eq] at hT' hSlot
  rw [execute_setLocal_eq, execute_setLocal_eq, hT'.fault hc, hSlot, hT.size]
  by_cases hi : (c₂.code.getD m₂.ip 0).toNat < m₂.stack.size
  · simp only [hi, ↓reduceIte]
    refine .stay (hT'.restack rfl rfl rfl rfl hT'.registers ?_) hc rfl rfl rfl rfl
    simp only [Array.toList_setIfInBounds]
    exact Forall₂.twin_set hT.stack _ (hT.peek 0)
  · simp only [hi, ↓reduceIte]
    exact .stay hT' hc rfl rfl rfl rfl

theorem execute_getGlobal (hT : Twins m₁ m₂) (hc : Chunk.Twin m₁.heap m₂.heap c₁ c₂) :
    Lockstep c₁ c₂ m₁ m₂ (m₁.execute c₁ .getGlobal) (m₂.execute c₂ .getGlobal) := by
  obtain ⟨hT', hR⟩ := hT.readName hc
  obtain ⟨r₁, h₁⟩ := readName_eq m₁ c₁
  obtain ⟨r₂, h₂⟩ := readName_eq m₂ c₂
  rw [h₁, h₂] at hT' hR
  dsimp only at hT' hR
  rcases hR with ⟨k₁, k₂, rfl, rfl, hChars, hl₁, hl₂⟩ | ⟨f, rfl, rfl⟩
  · rw [execute_getGlobal_of_name h₁, execute_getGlobal_of_name h₂, hT'.undefined hc hChars]
    have hGet := hT'.get? hl₁ (show m₂.heap.lookup? k₁.chars = some k₂ by rw [hChars]; exact hl₂)
    generalize Table.get? _ k₁ = a at hGet ⊢
    generalize Table.get? _ k₂ = b at hGet ⊢
    cases hGet with
    | none => exact .stay hT' hc rfl rfl rfl rfl
    | some hv => exact .stay (hT'.push hv) hc rfl rfl rfl rfl
  · rw [execute_of_readName_error h₁ (.inl rfl), execute_of_readName_error h₂ (.inl rfl)]
    exact .stay hT' hc rfl rfl rfl rfl

/-- Assigning twins: the name was bound in both, and is bound to twins, or in neither, and
stays unbound with one error. -/
theorem execute_setGlobal (hT : Twins m₁ m₂) (hc : Chunk.Twin m₁.heap m₂.heap c₁ c₂) :
    Lockstep c₁ c₂ m₁ m₂ (m₁.execute c₁ .setGlobal) (m₂.execute c₂ .setGlobal) := by
  obtain ⟨hT', hR⟩ := hT.readName hc
  obtain ⟨r₁, h₁⟩ := readName_eq m₁ c₁
  obtain ⟨r₂, h₂⟩ := readName_eq m₂ c₂
  rw [h₁, h₂] at hT' hR
  dsimp only at hT' hR
  rcases hR with ⟨k₁, k₂, rfl, rfl, hChars, hl₁, hl₂⟩ | ⟨f, rfl, rfl⟩
  · rw [execute_setGlobal_of_name h₁, execute_setGlobal_of_name h₂, hT'.undefined hc hChars]
    have hl₂' : m₂.heap.lookup? k₁.chars = some k₂ := by rw [hChars]; exact hl₂
    have hv := hT'.peek 0
    obtain ⟨hTi, hAns⟩ := hT'.insert hl₁ hl₂' hv
    -- The insert answers whether the name was bound, which twins agree on.
    have hBound := (hT'.canonical₁.insert hl₁ hv.1).2.2
    rw [hAns]
    by_cases hRep : (Table.insert ({ m₂ with ip := m₂.ip + 1 } : Machine).globals k₂
        (({ m₂ with ip := m₂.ip + 1 } : Machine).peek 0)).2 = true
    · rw [if_pos hRep, if_pos hRep]
      exact .stay hTi hc rfl rfl rfl rfl
    · rw [if_neg hRep, if_neg hRep]
      have hUnbound : ({ m₁ with ip := m₁.ip + 1 } : Machine).env k₁.chars = none := by
        rw [hAns] at hBound
        rw [← Option.not_isSome_iff_eq_none, ← hBound]
        exact hRep
      exact .stay (hT'.erase hl₁ hl₂' hv hUnbound) hc rfl rfl rfl rfl
  · rw [execute_of_readName_error h₁ (.inr (.inl rfl)), execute_of_readName_error h₂ (.inr (.inl rfl))]
    exact .stay hT' hc rfl rfl rfl rfl

theorem execute_defineGlobal (hT : Twins m₁ m₂) (hc : Chunk.Twin m₁.heap m₂.heap c₁ c₂) :
    Lockstep c₁ c₂ m₁ m₂ (m₁.execute c₁ .defineGlobal) (m₂.execute c₂ .defineGlobal) := by
  obtain ⟨hT', hR⟩ := hT.readName hc
  obtain ⟨r₁, h₁⟩ := readName_eq m₁ c₁
  obtain ⟨r₂, h₂⟩ := readName_eq m₂ c₂
  rw [h₁, h₂] at hT' hR
  dsimp only at hT' hR
  rcases hR with ⟨k₁, k₂, rfl, rfl, hChars, hl₁, hl₂⟩ | ⟨f, rfl, rfl⟩
  · rw [execute_defineGlobal_of_name h₁, execute_defineGlobal_of_name h₂]
    have hl₂' : m₂.heap.lookup? k₁.chars = some k₂ := by rw [hChars]; exact hl₂
    exact .stay (hT'.insert hl₁ hl₂' (hT'.peek 0)).1.pop.1 hc rfl rfl rfl rfl
  · rw [execute_of_readName_error h₁ (.inr (.inr rfl)), execute_of_readName_error h₂ (.inr (.inr rfl))]
    exact .stay hT' hc rfl rfl rfl rfl

/-- An instruction executes alike on twins running twin chunks. -/
theorem execute (hT : Twins m₁ m₂) (hc : Chunk.Twin m₁.heap m₂.heap c₁ c₂) (op : Op) :
    Lockstep c₁ c₂ m₁ m₂ (m₁.execute c₁ op) (m₂.execute c₂ op) := by
  have hLit : ∀ b : Bool, (Value.bool b).Twin m₁.heap m₂.heap (.bool b) := fun _ =>
    Value.twin_self fun _ h => by cases h
  cases op with
  | constant => exact hT.execute_constant hc
  | nil => exact .stay (hT.push (Value.twin_self fun _ h => by cases h)) hc rfl rfl rfl rfl
  | falseLit => exact .stay (hT.push (hLit false)) hc rfl rfl rfl rfl
  | trueLit => exact .stay (hT.push (hLit true)) hc rfl rfl rfl rfl
  | pop => exact .stay hT.pop.1 hc rfl rfl rfl rfl
  | equal => exact hT.execute_equal hc
  | greater | less | subtract | multiply | divide =>
    -- Twins hold the same numbers on top, or neither holds two numbers.
    simp only [Machine.execute, hT.numbers, hT.fault hc]
    cases m₂.numbers with
    | none => exact .stay hT hc rfl rfl rfl rfl
    | some p => exact .stay (hT.pop.1.pop.1.push (Value.twin_self fun _ h => by cases h)) hc rfl rfl rfl rfl
  | add => exact hT.execute_add hc
  | not => exact .stay (hT.pop.1.push ⟨trivial, trivial, congrArg Val.bool hT.pop.2.isFalsey⟩) hc rfl rfl rfl rfl
  | negate => exact hT.execute_negate hc
  | info => exact hT.execute_info hc
  | getLocal => exact hT.execute_getLocal hc
  | setLocal => exact hT.execute_setLocal hc
  | getGlobal => exact hT.execute_getGlobal hc
  | setGlobal => exact hT.execute_setGlobal hc
  | defineGlobal => exact hT.execute_defineGlobal hc
  | ret => exact .stay hT hc rfl rfl rfl rfl

/-- A traced instruction runs alike on twins: the trace step is written alike first. -/
theorem traced (hT : Twins m₁ m₂) (hc : Chunk.Twin m₁.heap m₂.heap c₁ c₂) (b : UInt8) (source : String)
    (line ip : Int) (op : Op) :
    Lockstep c₁ c₂ m₁ m₂ ((m₁.emit (.trace ⟨b, source, line, ip, m₁.stack.toList, c₁⟩)).execute c₁ op)
      ((m₂.emit (.trace ⟨b, source, line, ip, m₂.stack.toList, c₂⟩)).execute c₂ op) := by
  have hShown : (Effect.trace ⟨b, source, line, ip, m₁.stack.toList, c₁⟩).shown =
      (Effect.trace ⟨b, source, line, ip, m₂.stack.toList, c₂⟩).shown := by
    simp only [Effect.shown, TraceStep.render, hc.instruction,
      Forall₂.map_text hT.stack (fun x => Bytes.ofString "[ " ++ x ++ Bytes.ofString " ]")]
  exact .of_echoes ((Echoes.of_log rfl rfl).emit hShown) ((hT.emit _ _).execute hc op)

/-- One dispatch from twins running twin chunks ends alike. -/
theorem step (hT : Twins m₁ m₂) (hc : Chunk.Twin m₁.heap m₂.heap c₁ c₂) :
    Lockstep c₁ c₂ m₁ m₂ (m₁.step c₁) (m₂.step c₂) := by
  -- The checks before an instruction read registers and the stack's size, which twins share.
  have hStep : m₁.step c₁ =
      ({ m₂ with stack := m₁.stack, globals := m₁.globals, heap := m₁.heap, log := m₁.log } : Machine).step c₁ := by
    rw [← hT.eq_with]
  have hD : Twins
      { m₂ with stack := m₁.stack, globals := m₁.globals, heap := m₁.heap, log := m₁.log, lastOp := m₂.ip, ip := m₂.ip + 1, count := m₂.count + 1 }
      { m₂ with lastOp := m₂.ip, ip := m₂.ip + 1, count := m₂.count + 1 } :=
    hT.restack rfl rfl rfl rfl rfl hT.stack
  rw [hStep]
  unfold Machine.step
  dsimp only
  simp only [hc.code, hT.size, Machine.fault, hc.name, hc.lineAt]
  split
  · exact .stay (hT.restack rfl rfl rfl rfl rfl hT.stack) hc rfl rfl rfl rfl
  split
  · exact .stay hD hc rfl rfl rfl rfl
  split
  · exact .stay hD hc rfl rfl rfl rfl
  split
  · exact .stay hD hc rfl rfl rfl rfl
  split
  · exact .stay hD hc rfl rfl rfl rfl
  split
  · exact .stay hD hc rfl rfl rfl rfl
  split
  · exact .of_echoes' (hD.traced hc _ _ _ _ _) rfl rfl
  · exact .of_echoes' (hD.execute hc _) rfl rfl

/-- Resetting twins clears their stacks and registers alike. -/
theorem reset (hT : Twins m₁ m₂) : Twins m₁.reset m₂.reset :=
  hT.restack rfl rfl rfl rfl (congrArg Machine.reset hT.registers :) .nil

/-- Runs of twin chunks from twins end alike on any fuel; a runtime error resets both. -/
theorem runFor (hT : Twins m₁ m₂) (hc : Chunk.Twin m₁.heap m₂.heap c₁ c₂) (fuel : Nat) :
    Lockstep c₁ c₂ m₁ m₂ (m₁.runFor fuel c₁) (m₂.runFor fuel c₂) := by
  induction fuel generalizing m₁ m₂ with
  | zero => exact .stay hT hc rfl rfl rfl rfl
  | succ fuel ih =>
    obtain ⟨r₁, r₂, o, h₁, h₂, hT', hc', hE⟩ := (hT.step hc).split
    simp only [Machine.runFor, h₁, h₂]
    cases o with
    | proceed => exact .of_echoes hE (ih hT' hc')
    | halt => exact ⟨hT', hc', rfl, hE⟩
    | fault f => exact ⟨hT'.reset, hc', rfl, hE.trans (Echoes.of_log rfl rfl)⟩
    | pause => exact ⟨hT', hc', rfl, hE⟩

/-- A run starts from the machine reset, so machines that are twins once reset start alike. -/
theorem start (hT : Twins m₁.reset m₂.reset) (hc : Chunk.Twin m₁.heap m₂.heap c₁ c₂) :
    Lockstep c₁ c₂ m₁ m₂ (m₁.start c₁) (m₂.start c₂) := by
  unfold Machine.start
  rw [hc.size]
  exact .of_echoes' (hT.runFor hc _) rfl rfl

/-- Twin chunks run from machines that are twins once reset end alike: in twins, with one
result, having written alike. -/
theorem run (hT : Twins m₁.reset m₂.reset) (hc : Chunk.Twin m₁.heap m₂.heap c₁ c₂) :
    Lockstep c₁ c₂ m₁ m₂ (m₁.run c₁) (m₂.run c₂) := by
  obtain ⟨r₁, r₂, o, h₁, h₂, hT', hc', hE⟩ := (hT.start hc).split
  simp only [Machine.run, h₁, h₂]
  cases o <;> exact ⟨hT', hc', rfl, hE⟩

end Twins

end Machine

end StackScript
