import Mathlib.Order.Nat
import PatternAutomata.Proofs.Complaints
import PatternAutomata.Proofs.Rejection

/-!
# Patterns leave nothing over

Operands that touch get a mark between them, so the tokens of a pattern never hold more literals
than binary operators can take together, save one. Reordering keeps that. So nothing is left over
when all tokens of a pattern have been built: what can go wrong is that an operator finds one
operand or none, or that a quantifier without a rule turns up.
-/

namespace PatternAutomata

theorem height_markConcat_le_one (ts : List Token) : height (markConcat ts) ≤ 1 := by
  have hsum := height_markConcat_add false ts
  have hle : (endedAfter false ts).toNat ≤ 1 := Bool.toNat_le _
  rw [Bool.false_and, Bool.toNat_false] at hsum
  omega

theorem height_le_one_of_parse {text : String} {out : List Token} (h : parse text = .ok out) :
    height out ≤ 1 := by
  rw [height_of_toPostorder h]
  exact height_markConcat_le_one _

namespace Builder

variable {t : Token} {n : Nat}

theorem malformed_of_rejection {k : Nat} (ht : t.misfits n = true)
    (h : rejection n t = .malformed k) : k = 0 ∨ k = 1 := by
  cases t with
  | literal c => cases ht
  | star =>
    obtain rfl := CompileError.malformed.inj h
    simp only [Token.misfits, decide_eq_true_eq] at ht
    omega
  | union | concat =>
    obtain rfl := CompileError.malformed.inj h
    simp only [Token.misfits, decide_eq_true_eq] at ht
    omega
  | optional | plus | openParen | closeParen => cases h

theorem unsupported_of_rejection {c : Char} (ht : t.misfits n = true) (hparen : t.isParen = false)
    (h : rejection n t = .unsupportedOperator c) : c = '?' ∨ c = '+' := by
  cases t with
  | literal d => cases ht
  | star | union | concat => cases h
  | optional => exact Or.inl (CompileError.unsupportedOperator.inj h).symm
  | plus => exact Or.inr (CompileError.unsupportedOperator.inj h).symm
  | openParen | closeParen => cases hparen

end Builder

theorem exists_misfit_of_parse {text : String} {out : List Token} {e : Error}
    (hparse : parse text = .ok out) (h : Automaton.ofPostorder out = .error e) :
    out.foldlM Builder.apply .empty = .error e ∧
      ∃ t ∈ out, ∃ n : Nat, t.misfits n = true ∧ e = .compile (Builder.rejection n t) := by
  by_cases hex : ∃ i, Misfit out i
  · obtain ⟨i, hi⟩ : ∃ i, IsLeast {i | Misfit out i} i := ⟨_, Nat.isLeast_find hex⟩
    obtain ⟨t, n, ht, hn, hstop⟩ := Automaton.foldlM_apply_of_misfit hi
    have hmisfits := (misfit_iff ht).1 hi.1
    rw [hn] at hmisfits
    rw [Automaton.ofPostorder_of_foldlM_eq_error hstop] at h
    obtain rfl := Except.error.inj h
    exact ⟨hstop, t, List.mem_of_getElem? ht, n, hmisfits, rfl⟩
  · have hne : out ≠ [] := by
      rintro rfl
      rw [Automaton.ofPostorder_nil] at h
      cases h
    have hle := height_le_one_of_parse hparse
    obtain ⟨n, hn, hresult⟩ := Automaton.ofPostorder_of_fit hne (not_exists.1 hex)
    rcases hresult with ⟨-, m, hm⟩ | ⟨htwo, -⟩
    · rw [hm] at h
      cases h
    · omega

/-- A pattern does not compile because an operator finds one operand or none, or because of a
quantifier without a rule; what is built from its tokens is never too much. -/
theorem pattern_leaves_no_surplus (text : String) :
    (∀ n, Automaton.ofPattern text = .error (.compile (.malformed n)) → n = 0 ∨ n = 1) ∧
    (∀ c, Automaton.ofPattern text = .error (.compile (.unsupportedOperator c)) →
      c = '?' ∨ c = '+') ∧
    ∀ out, parse text = .ok out →
      height out ≤ 1 ∧
      ∀ e, Automaton.ofPostorder out = .error e →
        out.foldlM Builder.apply .empty = .error e ∧
          ∃ t ∈ out, ∃ n : Nat, t.misfits n = true ∧ e = .compile (Builder.rejection n t) := by
  refine ⟨fun k h => ?_, fun c h => ?_, fun out hparse => ⟨height_le_one_of_parse hparse, ?_⟩⟩
  · obtain ⟨out, hparse, hbuild⟩ :=
      Pattern.exists_parse_of_ofBuilding (Or.inr ⟨k, rfl⟩) (Pattern.compile_eq_error_iff.2 h)
    obtain ⟨-, t, -, n, hmisfits, he⟩ := exists_misfit_of_parse hparse hbuild
    exact Builder.malformed_of_rejection hmisfits (Error.compile.inj he).symm
  · obtain ⟨out, hparse, hbuild⟩ :=
      Pattern.exists_parse_of_ofBuilding (Or.inl ⟨c, rfl⟩) (Pattern.compile_eq_error_iff.2 h)
    obtain ⟨-, t, ht, n, hmisfits, he⟩ := exists_misfit_of_parse hparse hbuild
    exact Builder.unsupported_of_rejection hmisfits (isParen_of_mem_toPostorder hparse ht)
      (Error.compile.inj he).symm
  · exact fun e => exists_misfit_of_parse hparse

theorem pattern_leaves_no_surplus_dangling :
    (∃ n, Automaton.ofPattern "(|a)b" = .error (.compile (.malformed n)) ∧ (n = 0 ∨ n = 1)) ∧
    (∃ c, Automaton.ofPattern "(a|b)+c?" = .error (.compile (.unsupportedOperator c)) ∧
      (c = '?' ∨ c = '+')) ∧
    ∃ out, parse "(|a)b" = .ok out ∧ height out ≤ 1 ∧
      out.foldlM Builder.apply .empty = .error (.compile (.malformed 1)) := by
  have hbar : Automaton.ofPattern "(|a)b" = .error (.compile (.malformed 1)) := by decide
  have hplus : Automaton.ofPattern "(a|b)+c?" = .error (.compile (.unsupportedOperator '+')) := by
    decide
  have hparse : parse "(|a)b" = .ok [.literal 'a', .union, .literal 'b', .concat] := by decide
  obtain ⟨hmalformed, -, hout⟩ := pattern_leaves_no_surplus "(|a)b"
  obtain ⟨hheight, herror⟩ := hout _ hparse
  have hbuild := hbar
  rw [Automaton.ofPattern_of_parse hparse] at hbuild
  exact ⟨⟨1, hbar, hmalformed 1 hbar⟩, ⟨'+', hplus, (pattern_leaves_no_surplus _).2.1 '+' hplus⟩,
    _, hparse, hheight, (herror _ hbuild).1⟩

end PatternAutomata
