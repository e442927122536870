import Mathlib.Order.Bounds.Basic
import PatternAutomata.Proofs.Layout

/-!
# Where building stops

A builder that has read the first tokens of a sequence holds as many fragments as their height, so
whether the next token fits can be told by counting. The first token that does not fit stops it: one
without a construction rule is reported by its character, an operator by the number of operands that
were there. When all tokens fit, at least one fragment is left, and more than one is an error.
-/

namespace PatternAutomata

/-- The token at position `i` does not fit the operands that wait there. -/
def Misfit (ts : List Token) (i : Nat) : Prop := ts[i]?.any (Token.misfits (height (ts.take i)))

instance (ts : List Token) (i : Nat) : Decidable (Misfit ts i) :=
  inferInstanceAs (Decidable (_ = true))

theorem misfit_iff {ts : List Token} {i : Nat} {t : Token} (ht : ts[i]? = some t) :
    Misfit ts i ↔ t.misfits (height (ts.take i)) = true := by
  rw [Misfit, ht, Option.any_some]

theorem Misfit.exists_token {ts : List Token} {i : Nat} (h : Misfit ts i) :
    ∃ t, ts[i]? = some t ∧ t.misfits (height (ts.take i)) = true :=
  Option.any_eq_true _ _ |>.1 h

theorem Operations.exists_foldlM_push_take {α : Type} (ops : Operations α) {ts : List Token}
    {i : Nat} (hi : i ≤ ts.length) (hfit : ∀ j < i, ¬ Misfit ts j) :
    ∃ stack, (ts.take i).foldlM ops.push [] = some stack := by
  induction i with
  | zero => exact ⟨[], rfl⟩
  | succ i ih =>
    obtain ⟨stack, hrun⟩ := ih (by omega) fun j hj => hfit j (by omega)
    have hlast := hfit i (by omega)
    -- the height of the prefix is the length of the stack, so fitting means that the push succeeds
    rw [misfit_iff (List.getElem?_eq_getElem hi), height_eq_length hrun,
      ← push_eq_none_iff] at hlast
    obtain ⟨stack', hpush⟩ := Option.ne_none_iff_exists'.1 hlast
    refine ⟨stack', ?_⟩
    rw [List.take_succ_eq_append_getElem hi, List.foldlM_append, hrun]
    simpa using hpush

namespace Builder

theorem length_fragments (stack : List Expr) : (fragments stack).length = stack.length := by
  induction stack with
  | nil => rfl
  | cons e stack ih => rw [fragments, List.length_cons, List.length_cons, ih]

theorem foldlM_apply_of_none {stack stack' : List Expr} {us : List Token} {t : Token}
    (hrun : us.foldlM Operations.trees.push stack = some stack')
    (hpush : Operations.trees.push stack' t = none) (vs : List Token) :
    (us ++ t :: vs).foldlM apply (ofExprs stack) =
      .error (.compile (rejection stack'.length t)) := by
  have hstop : (ofExprs stack').apply t = .error (.compile (rejection stack'.length t)) := by
    rw [apply_ofExprs, hpush]
  rw [List.foldlM_append, foldlM_apply_of_some hrun]
  change (t :: vs).foldlM apply (ofExprs stack') = _
  rw [List.foldlM_cons, hstop]
  rfl

end Builder

namespace Automaton

variable {ts : List Token}

theorem foldlM_apply_of_misfit {i : Nat} (h : IsLeast {i | Misfit ts i} i) :
    ∃ (t : Token) (n : Nat), ts[i]? = some t ∧ height (ts.take i) = n ∧
      ts.foldlM Builder.apply .empty = .error (.compile (Builder.rejection n t)) := by
  obtain ⟨hmisfit, hleast⟩ := h
  obtain ⟨t, ht, hmisfits⟩ := Misfit.exists_token hmisfit
  obtain ⟨hi, rfl⟩ := List.getElem?_eq_some_iff.1 ht
  have hfit : ∀ j < i, ¬ Misfit ts j := fun j hj hj' => absurd (hleast hj') (by omega)
  obtain ⟨stack, hrun⟩ := Operations.trees.exists_foldlM_push_take hi.le hfit
  have hheight := Operations.height_eq_length hrun
  rw [hheight, ← Operations.push_eq_none_iff] at hmisfits
  have hstop := Builder.foldlM_apply_of_none hrun hmisfits (ts.drop (i + 1))
  rw [List.getElem_cons_drop, List.take_append_drop, Builder.ofExprs_nil] at hstop
  exact ⟨ts[i], stack.length, ht, hheight, hstop⟩

theorem ofPostorder_of_fit (hne : ts ≠ []) (hfit : ∀ i, ¬ Misfit ts i) :
    ∃ n : Nat, height ts = n ∧ (n = 1 ∧ (∃ m, ofPostorder ts = .ok m) ∨
      2 ≤ n ∧ ofPostorder ts = .error (.compile (.malformed n))) := by
  obtain ⟨stack, hrun⟩ := Operations.trees.exists_foldlM_push_take le_rfl fun i _ => hfit i
  rw [List.take_length] at hrun
  have hbuild := Builder.foldlM_apply_of_some hrun
  rw [Builder.ofExprs_nil] at hbuild
  refine ⟨stack.length, Operations.height_eq_length hrun, ?_⟩
  rw [ofPostorder_of_ne_nil hne, hbuild]
  rcases stack with _ | ⟨e, _ | ⟨f, rest⟩⟩
  · obtain ⟨hspelled, -⟩ := Expr.spelled_of_foldlM_push hrun (by simp)
    exact absurd hspelled.symm hne
  · exact Or.inl ⟨rfl, e.automaton, rfl⟩
  · refine Or.inr ⟨by simp, ?_⟩
    rw [← Builder.length_fragments]
    rfl

end Automaton

end PatternAutomata
