import PatternAutomata.Automaton.Simulation
import PatternAutomata.Construction
import PatternAutomata.Text.Quoted

/-!
# The journal

The journal tells what happens while a pattern is compiled and run: its text, its postorder once the
parentheses are known to balance, the size of the automaton once it is built, and then one event for
each character that the run consumes. A pattern without operands has no construction to report, nor
has one that fails.
-/

namespace PatternAutomata

inductive Event where
  | compiling (pattern : String)
  | reordered (postorder : List Token)
  | built (size : Nat)
  | consumed (c : Char) (live : Nat)
  deriving DecidableEq

inductive Activity where
  | compilation
  | matching
  deriving DecidableEq

namespace Event

def activity : Event → Activity
  | .compiling _ | .reordered _ | .built _ => .compilation
  | .consumed _ _ => .matching

def message : Event → String
  | .compiling pattern => "compiling pattern " ++ Text.quoteString pattern
  | .reordered postorder => "postfix form " ++ Text.quoteString (render postorder)
  | .built size => "compiled NFA with " ++ toString size ++ " states"
  | .consumed c live => "after " ++ Text.quoteChar c ++ ": " ++ toString live ++ " live states"

end Event

namespace Journal

def construction : List Token → List Event
  | [] => []
  | postorder =>
    match Automaton.ofPostorder postorder with
    | .ok m => [.built m.size]
    | .error _ => []

def compilation (pattern : String) : List Event :=
  .compiling pattern ::
    match parse pattern with
    | .ok postorder => .reordered postorder :: construction postorder
    | .error _ => []

def matching (run : Run) : List Event := run.consumed.toList.map fun (c, live) => .consumed c live

def record (pattern input : String) : List Event × Except Error Bool :=
  match Automaton.ofPattern pattern with
  | .error e => (compilation pattern, .error e)
  | .ok m =>
    match m.run input with
    | .error access => (compilation pattern, .error (.missingState access))
    | .ok run => (compilation pattern ++ matching run, .ok run.accepted)

end Journal

end PatternAutomata
