import PatternAutomata.Automaton.Simulation
import PatternAutomata.Construction

/-!
# Compiled patterns

A pattern is compiled once and keeps its text beside its automaton. It accepts an input when it
matches the whole of it. A request may leave its input out; that is an error of the request and
does not concern the pattern.
-/

namespace PatternAutomata

structure Pattern where
  text : String
  automaton : Automaton
  deriving DecidableEq

namespace Pattern

def compile (text : String) : Except Error Pattern := do
  return ⟨text, ← Automaton.ofPattern text⟩

def accepts (p : Pattern) (input : String) : Except Error Bool :=
  (p.automaton.isMatch input).mapError .missingState

def accepts? (p : Pattern) : Option String → Except Error Bool
  | some input => p.accepts input
  | none => .error .absentInput

end Pattern

end PatternAutomata
