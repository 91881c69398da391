import StackScript.Proofs.Bytecode.Load
import StackScript.Proofs.Syntax.Literals
import StackScript.Proofs.Compiler.Acceptance
import StackScript.Proofs.Compiler.StackSafety
import StackScript.Proofs.Compiler.Evaluation

/-! # Compiled chunks in files

A clean compile of a well-formed UTF-8 source makes a chunk of the shape a file can hold: its
constants are numbers and strings whose bytes are string bodies or names of the source, so they
are well-formed UTF-8 (`compile_storable`), and they are no longer than the source. Given code
and a name within the sizes CBOR can carry, storing and loading the chunk into any sound heap
gives it back there (`chunk_file_roundtrip`).

The UTF-8 condition is needed: a string literal may hold any bytes, and a text string of CBOR
that is not well-formed UTF-8 is refused by the reader. So is the size of the code, whose lines
are written as one CBOR array of at most 131072 entries.
-/

namespace StackScript

set_option autoImplicit false

/-- A property of constants that every number, every string literal's body and every name of the
tokens has holds of each constant of a pool built from them. -/
theorem foldl_tokenConst_forall (P : Const → Prop) (hNumber : ∀ x, P (.number x)) {ts : List Token}
    (hString : ∀ t ∈ ts, t.kind = .string → P (.string (stringBody t.text)))
    (hName : ∀ t ∈ ts, t.kind = .ident → P (.name t.text)) :
    ∀ {pool : List Const}, (∀ k ∈ pool, P k) → ∀ k ∈ ts.foldl tokenConst pool, P k := by
  induction ts with
  | nil => exact fun hPool => hPool
  | cons t ts ih =>
    intro pool hPool
    rw [List.foldl_cons]
    refine ih (fun u hu hk => hString u (List.mem_cons_of_mem t hu) hk)
      (fun u hu hk => hName u (List.mem_cons_of_mem t hu) hk) fun k hk => ?_
    -- the token adds at most one constant, of its own kind
    unfold tokenConst at hk
    split at hk
    · rcases List.mem_append.mp hk with hk | hk
      · exact hPool k hk
      · rw [List.mem_singleton.mp hk]
        exact hNumber _
    · rename_i hKind
      rcases List.mem_append.mp hk with hk | hk
      · exact hPool k hk
      · rw [List.mem_singleton.mp hk]
        exact hString t List.mem_cons_self hKind
    · rename_i hKind
      unfold addName at hk
      split at hk
      · exact hPool k hk
      · rcases List.mem_append.mp hk with hk | hk
        · exact hPool k hk
        · rw [List.mem_singleton.mp hk]
          exact hName t List.mem_cons_self hKind
    · exact hPool k hk

section Compiled

variable {src : Bytes} {heap : Heap} {name : String} (hHeap : heap.WF)
  (hClean : (compile src heap name).failure = none)
include hHeap hClean

/-- Every constant of a clean compile of a well-formed UTF-8 source is a value a file can hold,
and a string among them is no longer than the source. -/
theorem compile_constants_storable (hSrc : Bytes.isUtf8 src = true) :
    ∀ v ∈ (compile src heap name).chunk.constants.toList,
      v.Storable ∧ ∀ s : Str, v = .obj (.str s) → s.chars.length ≤ src.length := by
  obtain ⟨prog, hProg⟩ := compile_derives hHeap hClean
  obtain ⟨-, -, hSize, hConsts⟩ := compile_chunk src heap name hHeap hProg hClean
  -- what each constant of the pool denotes in the heap after the compile
  let P : Const → Prop := fun k => ∀ v : Value, k.Denotes (compile src heap name).heap v →
    v.Storable ∧ ∀ s : Str, v = .obj (.str s) → s.chars.length ≤ src.length
  have hBytes : ∀ b : Bytes, Bytes.isUtf8 b = true → b.length ≤ src.length →
      ∀ v : Value, (∃ str, (compile src heap name).heap.lookup? b = some str ∧ v = .obj (.str str)) →
        v.Storable ∧ ∀ s : Str, v = .obj (.str s) → s.chars.length ≤ src.length := by
    rintro b hUtf8 hLen v ⟨str, hl, rfl⟩
    have hChars := (Heap.WF.lookup?_sound hl).2
    refine ⟨show Bytes.isUtf8 str.chars = true from hChars ▸ hUtf8, fun s hs => ?_⟩
    cases hs
    exact hChars ▸ hLen
  obtain ⟨t₀, -, hToks⟩ := hProg.2
  have hMem : ∀ t ∈ prog.flatMap Decl.yield, t ∈ (Scanner.scan src).1 := by
    intro t ht
    rw [hToks]
    exact List.mem_append_left _ ht
  have hPool : ∀ k ∈ (programCode prog []).2, P k := by
    rw [programCode_pool_eq hProg.1]
    refine foldl_tokenConst_forall P ?_ ?_ ?_ (by simp)
    · rintro x v rfl
      exact ⟨trivial, fun s hs => by cases hs⟩
    · intro t ht hk
      obtain ⟨hUtf8, hLen⟩ := Scanner.stringBody_utf8 hSrc (hMem t ht) hk
      exact hBytes _ hUtf8 hLen
    · intro t ht hk
      obtain ⟨hUtf8, hLen⟩ := Scanner.ident_utf8 (hMem t ht) hk
      exact hBytes _ hUtf8 hLen
  intro v hv
  obtain ⟨i, hi⟩ := List.mem_iff_getElem?.mp hv
  rw [Array.getElem?_toList] at hi
  have hLt : i < (programCode prog []).2.length := by
    rw [← hSize]
    exact (Array.getElem?_eq_some_iff.mp hi).1
  obtain ⟨v', hv', hDen⟩ := hConsts i _ (List.getElem?_eq_getElem hLt)
  rw [hi] at hv'
  cases hv'
  exact hPool _ (List.getElem_mem hLt) v hDen

/-- A clean compile of a well-formed UTF-8 source shorter than `2 ^ 63 - 1` bytes makes a chunk
of the shape a file can hold. -/
theorem compile_storable (hSrc : Bytes.isUtf8 src = true) (hLen : src.length + 1 < 2 ^ 63) :
    (compile src heap name).chunk.Storable := by
  obtain ⟨prog, hProg⟩ := compile_derives hHeap hClean
  obtain ⟨-, hBound, hSize, -⟩ := compile_chunk src heap name hHeap hProg hClean
  obtain ⟨hLines, -, hRange⟩ := compile_lines src heap name
  refine ⟨fun v hv => (compile_constants_storable hHeap hClean hSrc v hv).1, hSize ▸ hBound, hLines, ?_⟩
  intro l hl
  have hCount := List.count_le_length (a := (10 : UInt8)) (l := src)
  have := hRange l hl
  omega

/-- The chunk of a clean compile of a well-formed UTF-8 source shorter than `2 ^ 63 - 1` bytes
has the sizes a file can carry, given its code and its name do. -/
theorem compile_sized (hSrc : Bytes.isUtf8 src = true) (hLen : src.length + 1 < 2 ^ 63)
    (hCode : (compile src heap name).chunk.code.size ≤ Cbor.maxEntries)
    (hName : (Bytes.ofString (compile src heap name).chunk.name).length < 2 ^ 63) :
    (compile src heap name).chunk.Sized := by
  refine ⟨hCode, hName, fun s hs => ?_⟩
  have := (compile_constants_storable hHeap hClean hSrc _ hs).2 s rfl
  omega

end Compiled

end StackScript
