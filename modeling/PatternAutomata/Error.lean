/-!
# What can go wrong

A pattern that does not compile has one of three causes. Apart from those, a request can leave its
input out, and an operation on a hand-made automaton can name a state that does not exist. Each
cause carries the data its message shows.
-/

namespace PatternAutomata

/-- The parenthesis that lacks its partner. -/
inductive Unbalanced where
  | unclosed
  | unopened
  deriving DecidableEq, Repr

inductive CompileError where
  | unbalancedParentheses (side : Unbalanced)
  | unsupportedOperator (operator : Char)
  /-- Operators and operands leave `remaining` fragments where one should be. -/
  | malformed (remaining : Nat)
  deriving DecidableEq, Repr

def CompileError.message : CompileError → String
  | .unbalancedParentheses .unclosed => "unbalanced parentheses: unclosed '('"
  | .unbalancedParentheses .unopened => "unbalanced parentheses: unopened ')'"
  | .unsupportedOperator c => "unsupported operator: '" ++ c.toString ++ "'"
  | .malformed n => "malformed pattern: " ++ toString n ++ " fragments where 1 was expected"

namespace CompileError

@[simp] theorem message_unclosed :
    message (.unbalancedParentheses .unclosed) = "unbalanced parentheses: unclosed '('" := rfl

@[simp] theorem message_unopened :
    message (.unbalancedParentheses .unopened) = "unbalanced parentheses: unopened ')'" := rfl

@[simp] theorem message_unsupportedOperator (c : Char) :
    message (.unsupportedOperator c) = "unsupported operator: '" ++ c.toString ++ "'" := rfl

@[simp] theorem message_malformed (n : Nat) : message (.malformed n) =
    "malformed pattern: " ++ toString n ++ " fragments where 1 was expected" := rfl

end CompileError

def CompileError.kind : CompileError → String
  | .unbalancedParentheses _ => "UnbalancedParentheses"
  | .unsupportedOperator _ => "UnsupportedOperator"
  | .malformed _ => "MalformedPostfix"

/-- An access to state `id` of an automaton with `size` states, where `size ≤ id`. -/
structure MissingState where
  size : Nat
  id : Nat
  deriving DecidableEq, Repr

def MissingState.message (m : MissingState) : String :=
  "index out of bounds: the len is " ++ toString m.size ++ " but the index is " ++ toString m.id

inductive Error where
  | compile (cause : CompileError)
  | absentInput
  | missingState (access : MissingState)
  deriving DecidableEq, Repr

namespace Error

def message : Error → String
  | .compile cause => "failed to compile pattern: " ++ cause.message
  | .absentInput => "input can not be absent"
  | .missingState access => access.message

def kind : Error → String
  | .compile _ => "Compile"
  | .absentInput => "InvalidInput"
  | .missingState _ => "MissingState"

def compileError? : Error → Option CompileError
  | .compile cause => some cause
  | .absentInput | .missingState _ => none

end Error

end PatternAutomata
