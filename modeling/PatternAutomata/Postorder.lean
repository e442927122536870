import PatternAutomata.Error
import PatternAutomata.Juxtaposition

/-!
# Postorder

Operators are moved behind their operands. A yard holds the tokens already emitted and the operators
that still wait, the innermost on top; an open parenthesis is a barrier among them. A literal is
emitted at once. An operator first releases the waiting operators that bind at least as tightly, so
operators of one strength group to the left. A closing parenthesis releases everything back to its
barrier. Only the parentheses are checked: whether operands are missing shows when an automaton is
built.
-/

namespace PatternAutomata

structure Yard where
  emitted : Array Token
  waiting : List Token
  deriving DecidableEq, Repr

namespace Yard

def empty : Yard := ⟨#[], []⟩

/-- Whether `waiting` is released before `incoming` starts to wait. -/
def yields (incoming waiting : Token) : Bool :=
  match waiting.precedence, incoming.precedence with
  | some w, some i => i ≤ w
  | _, _ => false

def isBarrier (t : Token) : Bool := t == .openParen

def push : Yard → Token → Except CompileError Yard
  | ⟨emitted, waiting⟩, .literal c => .ok ⟨emitted.push (.literal c), waiting⟩
  | ⟨emitted, waiting⟩, .openParen => .ok ⟨emitted, .openParen :: waiting⟩
  | ⟨emitted, waiting⟩, .closeParen =>
    match waiting.dropWhile (! isBarrier ·) with
    | [] => .error (.unbalancedParentheses .unopened)
    | _ :: outer => .ok ⟨emitted ++ waiting.takeWhile (! isBarrier ·), outer⟩
  | ⟨emitted, waiting⟩, operator =>
    .ok ⟨emitted ++ waiting.takeWhile (yields operator),
      operator :: waiting.dropWhile (yields operator)⟩

def finish : Yard → Except CompileError (List Token)
  | ⟨emitted, waiting⟩ =>
    if waiting.any isBarrier then
      .error (.unbalancedParentheses .unclosed)
    else
      .ok (emitted ++ waiting).toList

theorem isBarrier_of_precedence {t : Token} {n : Nat} (h : t.precedence = some n) :
    isBarrier t = false := by
  cases t with
  | openParen => cases h
  | _ => rfl

theorem exists_precedence_of_yields {op t : Token} (h : yields op t = true) :
    ∃ n, t.precedence = some n := by
  cases hn : t.precedence with
  | none => simp [yields, hn] at h
  | some n => exact ⟨n, rfl⟩

theorem push_operator {op : Token} {n : Nat} (hop : op.precedence = some n) (emitted : Array Token)
    (waiting : List Token) :
    push ⟨emitted, waiting⟩ op = .ok ⟨emitted ++ waiting.takeWhile (yields op),
      op :: waiting.dropWhile (yields op)⟩ := by
  cases op with
  | concat | union | star | optional | plus => rfl
  | literal c | openParen | closeParen => cases hop

theorem split_barrier (waiting : List Token) :
    (∀ t ∈ waiting, isBarrier t = false) ∨
      ∃ inner outer, (∀ t ∈ inner, isBarrier t = false) ∧
        waiting = inner ++ .openParen :: outer := by
  induction waiting with
  | nil => exact Or.inl (by simp)
  | cons t waiting ih =>
    by_cases ht : t = .openParen
    · exact Or.inr ⟨[], waiting, by simp, by simp [ht]⟩
    · have hb : isBarrier t = false := by simp [isBarrier, ht]
      rcases ih with h | ⟨inner, outer, hi, hw⟩
      · exact Or.inl (by simpa [hb] using h)
      · exact Or.inr ⟨t :: inner, outer, by simpa [hb] using hi, by simp [hw]⟩

theorem push_closeParen_eq (emitted : Array Token) (waiting : List Token) :
    push ⟨emitted, waiting⟩ .closeParen =
      match waiting.dropWhile (! isBarrier ·) with
      | [] => .error (.unbalancedParentheses .unopened)
      | _ :: outer => .ok ⟨emitted ++ waiting.takeWhile (! isBarrier ·), outer⟩ := rfl

theorem push_closeParen {inner : List Token} (h : ∀ t ∈ inner, isBarrier t = false)
    (emitted : Array Token) (outer : List Token) :
    push ⟨emitted, inner ++ .openParen :: outer⟩ .closeParen = .ok ⟨emitted ++ inner, outer⟩ := by
  have hp : ∀ t ∈ inner, (! isBarrier t) = true := by simpa using h
  rw [push_closeParen_eq, List.takeWhile_append_of_pos hp, List.dropWhile_append_of_pos hp]
  simp [isBarrier]

theorem push_closeParen_of_unopened {waiting : List Token}
    (h : ∀ t ∈ waiting, isBarrier t = false) (emitted : Array Token) :
    push ⟨emitted, waiting⟩ .closeParen = .error (.unbalancedParentheses .unopened) := by
  have hp : ∀ t ∈ waiting, (! isBarrier t) = true := by simpa using h
  have hd : (waiting ++ []).dropWhile (! isBarrier ·) = [] := List.dropWhile_append_of_pos hp
  rw [List.append_nil] at hd
  rw [push_closeParen_eq, hd]

/-- What pushing a token can meet: an operator, a literal, a parenthesis that opens, one that closes
the innermost open one, or one that has nothing to close. -/
@[elab_as_elim]
theorem push_cases {motive : Yard → Token → Prop}
    (operator : ∀ emitted waiting op n, op.precedence = some n → motive ⟨emitted, waiting⟩ op)
    (literal : ∀ emitted waiting c, motive ⟨emitted, waiting⟩ (.literal c))
    (openParen : ∀ emitted waiting, motive ⟨emitted, waiting⟩ .openParen)
    (closeParen : ∀ emitted inner outer, (∀ t ∈ inner, isBarrier t = false) →
      motive ⟨emitted, inner ++ .openParen :: outer⟩ .closeParen)
    (unopened : ∀ emitted waiting, (∀ t ∈ waiting, isBarrier t = false) →
      motive ⟨emitted, waiting⟩ .closeParen)
    (y : Yard) (t : Token) : motive y t := by
  obtain ⟨emitted, waiting⟩ := y
  cases t with
  | literal c => exact literal emitted waiting c
  | openParen => exact openParen emitted waiting
  | closeParen =>
    rcases split_barrier waiting with hnone | ⟨inner, outer, hinner, rfl⟩
    · exact unopened emitted waiting hnone
    · exact closeParen emitted inner outer hinner
  | concat | union | star | optional | plus => exact operator emitted waiting _ _ rfl

theorem exists_push_of_foldlM {y y' : Yard} {t : Token} {ts : List Token}
    (h : (t :: ts).foldlM push y = .ok y') :
    ∃ y₁, push y t = .ok y₁ ∧ ts.foldlM push y₁ = .ok y' := by
  rw [List.foldlM_cons] at h
  cases hpush : push y t with
  | error cause =>
    rw [hpush] at h
    cases h
  | ok y₁ =>
    rw [hpush] at h
    exact ⟨y₁, rfl, h⟩

end Yard

def toPostorder (tokens : List Token) : Except CompileError (List Token) := do
  (← tokens.foldlM Yard.push .empty).finish

theorem toPostorder_of_foldlM {tokens : List Token} {y : Yard}
    (h : tokens.foldlM Yard.push .empty = .ok y) : toPostorder tokens = y.finish := by
  rw [toPostorder, h]
  rfl

def parse (pattern : String) : Except CompileError (List Token) :=
  toPostorder (markConcat (tokenize pattern))

end PatternAutomata
