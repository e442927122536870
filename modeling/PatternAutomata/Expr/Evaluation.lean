import PatternAutomata.Expr
import PatternAutomata.Height

/-!
# Evaluation of postorder

A token sequence in postorder is evaluated on a stack: a literal puts a value on it and an operator
replaces the values on top by their combination. Which tokens there are enough operands for and how
many values are left can be told by counting, whatever the values are. The richest values are trees.
They write down what was read, so the tree left from the postorder of an expression is that
expression.
-/

namespace PatternAutomata

/-- The values of literals, and what the operators with a construction rule do to values. -/
structure Operations (α : Type) where
  literal : Char → α
  concat : α → α → α
  union : α → α → α
  star : α → α

namespace Operations

variable {α : Type} (ops : Operations α)

/-- The latest value stands first. -/
def push : List α → Token → Option (List α)
  | stack, .literal c => some (ops.literal c :: stack)
  | inner :: stack, .star => some (ops.star inner :: stack)
  | right :: left :: stack, .union => some (ops.union left right :: stack)
  | right :: left :: stack, .concat => some (ops.concat left right :: stack)
  | _, _ => none

variable {ops} {stack stack' : List α} {t : Token} {ts : List Token}

theorem push_eq_none_iff : ops.push stack t = none ↔ t.misfits stack.length = true := by
  cases t with
  | literal c => exact iff_of_false (fun h => by cases h) (fun h => by cases h)
  | star =>
    rcases stack with _ | ⟨inner, rest⟩
    · exact iff_of_true rfl rfl
    · refine iff_of_false (fun h => by cases h) ?_
      simp only [Token.misfits, List.length_cons, decide_eq_true_eq]
      omega
  | union | concat =>
    rcases stack with _ | ⟨right, _ | ⟨left, rest⟩⟩
    · exact iff_of_true rfl rfl
    · exact iff_of_true rfl rfl
    · refine iff_of_false (fun h => by cases h) ?_
      simp only [Token.misfits, List.length_cons, decide_eq_true_eq]
      omega
  | optional | plus | openParen | closeParen => exact iff_of_true rfl rfl

theorem cases_of_push (h : ops.push stack t = some stack') :
    (∃ c, t = .literal c ∧ stack' = ops.literal c :: stack) ∨
      (∃ a rest, t = .star ∧ stack = a :: rest ∧ stack' = ops.star a :: rest) ∨
      (∃ a b rest, t = .union ∧ stack = b :: a :: rest ∧ stack' = ops.union a b :: rest) ∨
      ∃ a b rest, t = .concat ∧ stack = b :: a :: rest ∧ stack' = ops.concat a b :: rest := by
  cases t with
  | literal c => exact .inl ⟨c, rfl, (Option.some.inj h).symm⟩
  | star =>
    rcases stack with _ | ⟨a, rest⟩
    · cases h
    · exact .inr (.inl ⟨a, rest, rfl, rfl, (Option.some.inj h).symm⟩)
  | union =>
    rcases stack with _ | ⟨b, _ | ⟨a, rest⟩⟩
    · cases h
    · cases h
    · exact .inr (.inr (.inl ⟨a, b, rest, rfl, rfl, (Option.some.inj h).symm⟩))
  | concat =>
    rcases stack with _ | ⟨b, _ | ⟨a, rest⟩⟩
    · cases h
    · cases h
    · exact .inr (.inr (.inr ⟨a, b, rest, rfl, rfl, (Option.some.inj h).symm⟩))
  | optional | plus | openParen | closeParen => cases h

theorem length_of_push (h : ops.push stack t = some stack') :
    (stack'.length : Int) = stack.length + height [t] := by
  have hunion : height [.union] = -1 := rfl
  have hconcat : height [.concat] = -1 := rfl
  obtain ⟨c, rfl, rfl⟩ | ⟨a, rest, rfl, rfl, rfl⟩ | ⟨a, b, rest, rfl, rfl, rfl⟩ |
    ⟨a, b, rest, rfl, rfl, rfl⟩ := cases_of_push h
  · rfl
  · rfl
  · simp only [List.length_cons, hunion]
    omega
  · simp only [List.length_cons, hconcat]
    omega

theorem length_of_foldlM_push (h : ts.foldlM ops.push stack = some stack') :
    (stack'.length : Int) = stack.length + height ts := by
  induction ts generalizing stack with
  | nil =>
    obtain rfl := Option.some.inj h
    simp
  | cons t ts ih =>
    obtain ⟨middle, hpush, hrest⟩ := Option.bind_eq_some_iff.1 h
    rw [ih hrest, length_of_push hpush, height_cons t ts, Int.add_assoc]

theorem height_eq_length (h : ts.foldlM ops.push [] = some stack) : height ts = stack.length := by
  simpa using (length_of_foldlM_push h).symm

def trees : Operations Expr := ⟨.literal, .concat, .union, .star⟩

end Operations

namespace Expr

open Operations

variable {stack stack' : List Expr} {t : Token} {ts : List Token}

def spelled : List Expr → List Token
  | [] => []
  | e :: stack => spelled stack ++ e.postorder

theorem spelled_of_push (h : trees.push stack t = some stack') :
    spelled stack' = spelled stack ++ [t] := by
  obtain ⟨c, rfl, rfl⟩ | ⟨a, rest, rfl, rfl, rfl⟩ | ⟨a, b, rest, rfl, rfl, rfl⟩ |
    ⟨a, b, rest, rfl, rfl, rfl⟩ := cases_of_push h
  · rfl
  · simp [spelled, trees, postorder]
  · simp [spelled, trees, postorder]
  · simp [spelled, trees, postorder]

theorem constructible_of_push (h : trees.push stack t = some stack')
    (hstack : ∀ e ∈ stack, e.constructible = true) : ∀ e ∈ stack', e.constructible = true := by
  obtain ⟨c, rfl, rfl⟩ | ⟨a, rest, rfl, rfl, rfl⟩ | ⟨a, b, rest, rfl, rfl, rfl⟩ |
    ⟨a, b, rest, rfl, rfl, rfl⟩ := cases_of_push h
  · simpa [trees, constructible] using hstack
  · simpa [trees, constructible] using hstack
  · simp_all [trees, constructible]
  · simp_all [trees, constructible]

theorem spelled_of_foldlM_push (h : ts.foldlM trees.push stack = some stack')
    (hstack : ∀ e ∈ stack, e.constructible = true) :
    spelled stack' = spelled stack ++ ts ∧ ∀ e ∈ stack', e.constructible = true := by
  induction ts generalizing stack with
  | nil =>
    obtain rfl := Option.some.inj h
    exact ⟨by simp, hstack⟩
  | cons t ts ih =>
    obtain ⟨middle, hpush, hrest⟩ := Option.bind_eq_some_iff.1 h
    obtain ⟨hspelled, hall⟩ := ih hrest (constructible_of_push hpush hstack)
    refine ⟨?_, hall⟩
    rw [hspelled, spelled_of_push hpush, List.append_assoc, List.singleton_append]

theorem foldlM_push_postorder {e : Expr} (h : e.constructible = true) (stack : List Expr) :
    e.postorder.foldlM trees.push stack = some (e :: stack) := by
  induction e generalizing stack with
  | literal c => rfl
  | concat e f ihe ihf | union e f ihe ihf =>
    simp only [constructible, Bool.and_eq_true] at h
    simp only [postorder, List.foldlM_append, ihe h.1, ihf h.2, Option.bind_eq_bind,
      Option.bind_some]
    rfl
  | star e ih =>
    simp only [postorder, List.foldlM_append, ih h, Option.bind_eq_bind, Option.bind_some]
    rfl
  | optional e | plus e => simp [constructible] at h

theorem postorder_injective {e f : Expr} (he : e.constructible = true)
    (hf : f.constructible = true) (h : e.postorder = f.postorder) : e = f := by
  have hpush := foldlM_push_postorder he []
  rw [h, foldlM_push_postorder hf [], Option.some.injEq] at hpush
  exact (List.cons.inj hpush).1.symm

theorem height_postorder (e : Expr) : height e.postorder = 1 := by
  induction e with
  | literal c => rfl
  | concat e f ihe ihf | union e f ihe ihf =>
    rw [postorder, height_append, height_append, ihe, ihf]
    rfl
  | star e ih | optional e ih | plus e ih =>
    rw [postorder, height_append, ih]
    rfl

end Expr

end PatternAutomata
