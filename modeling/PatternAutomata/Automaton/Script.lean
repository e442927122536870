import PatternAutomata.Automaton.Fragment
import PatternAutomata.Automaton.Listing
import PatternAutomata.Automaton.Simulation

/-!
# Scripts

A script is a list of commands on one automaton: additions, construction rules and questions. The
transcript holds, for each command, its answer or the missing state it met, and the size and the
accepting states after it. A command that fails leaves what it changed before, and the script goes
on from there.
-/

namespace PatternAutomata

inductive Command where
  | addState (accepting : Bool)
  | addEdge (source : StateId) (c : Char) (target : StateId)
  | addEpsilon (source target : StateId)
  | setAccepting (id : StateId) (accepting : Bool)
  | setStart (id : StateId)
  | epsilon
  | symbol (c : Char)
  | concat (first second : Fragment)
  | union (first second : Fragment)
  | closure (inner : Fragment)
  | isEmpty
  | start
  | state (id : StateId)
  | next (id : StateId) (c : Char)
  | hasEpsilon (id : StateId)
  | settle (seeds : List StateId)
  | step (ids : List StateId) (c : Char)
  | isAccepting (live : List StateId)
  | startStates
  | advance (live : List StateId) (c : Char)
  | isMatch (input : String)
  | listing

inductive Answer where
  | done
  | id (id : StateId)
  | fragment (f : Fragment)
  | truth (b : Bool)
  | state (s : State)
  | target (target? : Option StateId)
  | ids (ids : StateSet)
  | text (text : String)

namespace Command

open EditM

def run : Command → EditM Answer
  | .addState accepting => .id <$> EditM.addState accepting
  | .addEdge source c target => do EditM.addEdge source c target; return .done
  | .addEpsilon source target => do EditM.addEpsilon source target; return .done
  | .setAccepting id accepting => do EditM.setAccepting id accepting; return .done
  | .setStart id => do EditM.setStart id; return .done
  | .epsilon => .fragment <$> Fragment.epsilon
  | .symbol c => .fragment <$> Fragment.symbol c
  | .concat first second => .fragment <$> first.concat second
  | .union first second => .fragment <$> first.union second
  | .closure inner => .fragment <$> inner.closure
  | .isEmpty => query fun m => return .truth m.isEmpty
  | .start => query fun m => return .id m.start
  | .state id => query fun m => .state <$> m.lookup id
  | .next id c => query fun m => return .target ((← m.lookup id).next? c)
  | .hasEpsilon id => query fun m => return .truth (← m.lookup id).hasEpsilon
  | .settle seeds => query fun m => .ids <$> m.settle seeds
  | .step ids c => query fun m => .ids <$> m.step ids c
  | .isAccepting live => query fun m => .truth <$> m.isAccepting (.ofList live)
  | .startStates => query fun m => .ids <$> m.startStates
  | .advance live c => query fun m => .ids <$> m.advance (.ofList live) c
  | .isMatch input => query fun m => .truth <$> m.isMatch input
  | .listing => query fun m => return .text m.listing

end Command

structure Entry where
  answer : Except MissingState Answer
  size : Nat
  accepting : List StateId

def Automaton.transcript (m : Automaton) : List Command → List Entry
  | [] => []
  | command :: script =>
    match command.run m with
    | .ok a m => ⟨.ok a, m.size, m.acceptingIds⟩ :: m.transcript script
    | .error e m => ⟨.error e, m.size, m.acceptingIds⟩ :: m.transcript script

end PatternAutomata
