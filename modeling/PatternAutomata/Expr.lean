import PatternAutomata.Token

/-!
# Expressions

An expression is what a pattern means as a tree. Its postorder lists the operands from left to right
and each operator behind its operands, without parentheses. Two expressions regroup each other when
they differ at most in how chains of concatenations are parenthesised.
-/

namespace PatternAutomata

inductive Expr where
  | literal (c : Char)
  | concat (e f : Expr)
  | union (e f : Expr)
  | star (e : Expr)
  | optional (e : Expr)
  | plus (e : Expr)
  deriving DecidableEq, Repr

namespace Expr

def postorder : Expr → List Token
  | .literal c => [.literal c]
  | .concat e f => e.postorder ++ f.postorder ++ [.concat]
  | .union e f => e.postorder ++ f.postorder ++ [.union]
  | .star e => e.postorder ++ [.star]
  | .optional e => e.postorder ++ [.optional]
  | .plus e => e.postorder ++ [.plus]

/-- Whether there is a construction rule for every operator in it. -/
def constructible : Expr → Bool
  | .literal _ => true
  | .concat e f | .union e f => e.constructible && f.constructible
  | .star e => e.constructible
  | .optional _ | .plus _ => false

inductive Regroups : Expr → Expr → Prop
  | refl (e : Expr) : Regroups e e
  | symm {e f : Expr} : Regroups e f → Regroups f e
  | trans {e f g : Expr} : Regroups e f → Regroups f g → Regroups e g
  | assoc (e f g : Expr) : Regroups (.concat (.concat e f) g) (.concat e (.concat f g))
  | concat {e e' f f' : Expr} :
      Regroups e e' → Regroups f f' → Regroups (.concat e f) (.concat e' f')
  | union {e e' f f' : Expr} : Regroups e e' → Regroups f f' → Regroups (.union e f) (.union e' f')
  | star {e e' : Expr} : Regroups e e' → Regroups (.star e) (.star e')
  | optional {e e' : Expr} : Regroups e e' → Regroups (.optional e) (.optional e')
  | plus {e e' : Expr} : Regroups e e' → Regroups (.plus e) (.plus e')

theorem postorder_ne_nil (e : Expr) : e.postorder ≠ [] := by
  cases e <;> simp [postorder]

theorem constructible_iff {e : Expr} :
    e.constructible = true ↔ ∀ t ∈ e.postorder, t.isUnsupported = false := by
  induction e with
  | literal c => simp [constructible, postorder, Token.isUnsupported]
  | concat e f ihe ihf | union e f ihe ihf =>
    simp [constructible, postorder, Token.isUnsupported, or_imp, forall_and, ihe, ihf]
  | star e ih => simp [constructible, postorder, Token.isUnsupported, or_imp, forall_and, ih]
  | optional e | plus e => simp [constructible, postorder, Token.isUnsupported]

end Expr

end PatternAutomata
