import Std.Data.ExtTreeMap
import Std.Data.ExtTreeSet
import PatternAutomata.Error

/-!
# Automata with epsilon edges

States are numbered in the order in which they were added, and edges name their targets by number.
A state has at most one edge for each character and a list of epsilon edges, whose order and
repetitions matter. Edge targets and the start may name states that do not exist; looking such a
state up fails and says which one was missing.
-/

namespace PatternAutomata

abbrev StateId := Nat

/-- Finite sets of states; two of them are equal when they have the same members. -/
abbrev StateSet := Std.ExtTreeSet StateId

structure State where
  accepting : Bool
  edges : Std.ExtTreeMap Char StateId
  epsilon : List StateId
  deriving DecidableEq

namespace State

def new (accepting : Bool) : State := ⟨accepting, ∅, []⟩

def next? (s : State) (c : Char) : Option StateId := s.edges[c]?

def hasEpsilon (s : State) : Bool := !s.epsilon.isEmpty

end State

structure Automaton where
  states : Array State
  start : StateId
  deriving DecidableEq

namespace Automaton

def empty : Automaton := ⟨#[], 0⟩

def size (m : Automaton) : Nat := m.states.size

def isEmpty (m : Automaton) : Bool := m.states.isEmpty

def missing (m : Automaton) (id : StateId) : MissingState := ⟨m.size, id⟩

def lookup (m : Automaton) (id : StateId) : Except MissingState State :=
  match m.states[id]? with
  | some s => .ok s
  | none => .error (m.missing id)

def acceptingIds (m : Automaton) : List StateId :=
  (List.range m.size).filter fun id => m.states[id]?.any State.accepting

def epsilonCount (m : Automaton) : Nat := (m.states.toList.flatMap State.epsilon).length

theorem lookup_eq_ok {m : Automaton} {id : StateId} {s : State} :
    m.lookup id = .ok s ↔ m.states[id]? = some s := by
  simp only [lookup]
  split <;> simp_all

end Automaton

end PatternAutomata
