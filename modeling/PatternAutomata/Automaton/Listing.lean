import PatternAutomata.Automaton.Basic
import PatternAutomata.Text.Quoted

/-!
# The listing of an automaton

One line describes each state: whether it is the start and whether it accepts, its number, its edges
in the order of their characters, and its epsilon edges in their own order.
-/

namespace PatternAutomata

def listIds (ids : List StateId) : String :=
  "[" ++ String.intercalate ", " (ids.map toString) ++ "]"

def paddedId (id : StateId) : String := String.ofList ((toString id).toList.leftpad 6 '0')

namespace State

def listEdges (s : State) : String :=
  String.join (s.edges.toList.map fun (c, target) =>
    " " ++ Text.quoteChar c ++ " => " ++ toString target)

def listEpsilon (s : State) : String :=
  if s.hasEpsilon then " eps => " ++ listIds s.epsilon else ""

def listing (s : State) (start id : StateId) : String :=
  (if id = start then "^" else " ") ++ (if s.accepting then "*" else " ") ++ paddedId id ++ ":" ++
    s.listEdges ++ s.listEpsilon ++ "\n"

end State

def Automaton.listing (m : Automaton) : String :=
  "NFA(\n" ++ String.join (m.states.toList.mapIdx fun id s => s.listing m.start id) ++ ")"

end PatternAutomata
