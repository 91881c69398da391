import StackScript.Syntax.Scanner
import StackScript.Proofs.Compiler.Program

/-! # The scanner ends its tokens with the end of input

Every token but the end of input takes at least one byte, so the scanner's step bound of one
step per byte is never reached: the token list of every source is terminated, ending with the
one end-of-input token (`scan_terminated`).
-/

namespace StackScript

set_option autoImplicit false

namespace Scanner

theorem skipGap_length :
    ∀ (g : Gap) (bs : Bytes) (p : Position), (skipGap g bs p).1.length ≤ bs.length
  | .blanks, [], _ => Nat.le_refl _
  | .blanks, [b], p => by
    simp only [skipGap]
    split
    · exact Nat.le_succ_of_le (skipGap_length .blanks [] _)
    · split <;> exact Nat.le_refl _
  | .blanks, b :: c :: r, p => by
    simp only [skipGap]
    split
    · exact Nat.le_succ_of_le (skipGap_length .blanks (c :: r) _)
    · split
      · split
        · exact Nat.le_trans (skipGap_length .lineComment r _) (by simp only [List.length_cons]; omega)
        · split
          · exact Nat.le_trans (skipGap_length (.blockComment false) r _)
              (by simp only [List.length_cons]; omega)
          · exact Nat.le_refl _
      · exact Nat.le_refl _
  | .lineComment, [], _ => Nat.le_refl _
  | .lineComment, b :: r, p => by
    simp only [skipGap]
    split
    · exact Nat.le_succ_of_le (skipGap_length .blanks r _)
    · exact Nat.le_succ_of_le (skipGap_length .lineComment r _)
  | .blockComment _, [], _ => Nat.le_refl _
  | .blockComment afterStar, b :: r, p => by
    simp only [skipGap]
    split
    · exact Nat.le_succ_of_le (skipGap_length .blanks r _)
    · exact Nat.le_succ_of_le (skipGap_length (.blockComment (b == 42)) r _)

/-- A token other than the end of input takes at least one byte. -/
theorem token_length {bs : Bytes} {p : Position} (h : (token bs p).1.kind ≠ .eof) :
    (token bs p).2.1.length < bs.length := by
  match bs with
  | [] => exact absurd rfl h
  | b :: r =>
    have hDrop : ∀ n, (r.drop n).length < (b :: r).length := fun n => by
      simp only [List.length_drop, List.length_cons]
      omega
    have hWhile : ∀ f : UInt8 → Bool, (r.dropWhile f).length < (b :: r).length := fun f =>
      Nat.lt_of_le_of_lt (List.dropWhile_suffix f).length_le (Nat.lt_succ_self _)
    simp only [token]
    split
    · exact Nat.lt_succ_self _
    · split
      · split
        · split
          · simp only [List.length_cons]
            omega
          · exact Nat.lt_succ_self _
        · exact Nat.lt_succ_self _
      · split
        · split
          · rename_i hSplit
            have := hWhile (· != b)
            rw [hSplit] at this
            simp only [List.length_cons] at this ⊢
            omega
          · simp
        · split
          · exact hWhile _
          · split
            · exact hDrop _
            · exact Nat.lt_succ_self _

theorem next_length {s : Scanner} (h : s.next.1.kind ≠ .eof) : s.next.2.rest.length < s.rest.length :=
  Nat.lt_of_lt_of_le (token_length h) (skipGap_length .blanks s.rest s.pos)

theorem tokensWithin_terminated :
    ∀ (fuel : Nat) (s : Scanner), s.rest.length < fuel → Terminated (tokensWithin fuel s).1 := by
  intro fuel
  induction fuel with
  | zero => intro s h; exact absurd h (Nat.not_lt_zero _)
  | succ fuel ih =>
    intro s hLen
    have hProgress := @next_length s
    cases hNext : s.next with
    | mk t s' =>
      rw [hNext] at hProgress
      simp only [tokensWithin, hNext]
      split
      · rename_i hEof
        exact ⟨[], t, rfl, beq_iff_eq.mp hEof, by simp⟩
      · rename_i hEof
        have ht : t.kind ≠ .eof := fun h => hEof (beq_iff_eq.mpr h)
        have hTail := ih s' (by have : s'.rest.length < s.rest.length := hProgress ht; omega)
        cases hW : tokensWithin fuel s' with
        | mk ts s'' =>
          rw [hW] at hTail
          obtain ⟨r, u, rfl, hu, hr⟩ := hTail
          refine ⟨t :: r, u, rfl, hu, fun v hv => ?_⟩
          rcases List.mem_cons.mp hv with rfl | hv
          · exact ht
          · exact hr v hv

/-- The tokens of every source end with the end of input, and only there. -/
theorem scan_terminated (src : Bytes) : Terminated (scan src).1 :=
  tokensWithin_terminated _ _ (Nat.lt_succ_self _)

end Scanner

end StackScript
