import PatternAutomata.Automaton.Settle

/-!
# Running an automaton on a word

A run keeps the set of live states, all of them settled, and advances it over one character at a
time. It ends early when no state is live and characters remain. A run records each character it
consumed with the number of states live after it.
-/

namespace PatternAutomata

structure Run where
  consumed : Array (Char × Nat)
  accepted : Bool
  deriving DecidableEq, Repr

namespace Automaton

/-- Targets of the edges for `c` that leave `ids`, before they settle. -/
def step (m : Automaton) (ids : List StateId) (c : Char) : Except MissingState StateSet :=
  ids.foldlM (fun found id => do
    let s ← m.lookup id
    return (s.next? c).elim found found.insert) ∅

def advance (m : Automaton) (live : StateSet) (c : Char) : Except MissingState StateSet := do
  let targets ← m.step live.toList c
  m.settle targets.toList

def startStates (m : Automaton) : Except MissingState StateSet := m.settle [m.start]

def isAccepting (m : Automaton) (live : StateSet) : Except MissingState Bool :=
  live.toList.anyM fun id => State.accepting <$> m.lookup id

def liveAfter (m : Automaton) (word : List Char) : Except MissingState StateSet := do
  word.foldlM m.advance (← m.startStates)

def runFrom (m : Automaton) (live : StateSet) (consumed : Array (Char × Nat)) :
    List Char → Except MissingState Run
  | [] => return ⟨consumed, ← m.isAccepting live⟩
  | c :: rest =>
    if live.isEmpty then
      return ⟨consumed, false⟩
    else do
      let next ← m.advance live c
      m.runFrom next (consumed.push (c, next.size)) rest

theorem runFrom_dead {m : Automaton} {live : StateSet} (h : live.isEmpty)
    (consumed : Array (Char × Nat)) (c : Char) (rest : List Char) :
    m.runFrom live consumed (c :: rest) = .ok ⟨consumed, false⟩ := by
  rw [runFrom, if_pos h]
  rfl

theorem runFrom_alive {m : Automaton} {live next : StateSet} (h : live.isEmpty = false)
    {c : Char} (hn : m.advance live c = .ok next) (consumed : Array (Char × Nat))
    (rest : List Char) :
    m.runFrom live consumed (c :: rest) =
      m.runFrom next (consumed.push (c, next.size)) rest := by
  rw [runFrom, if_neg (by simp [h]), hn]
  rfl

def run (m : Automaton) (input : String) : Except MissingState Run := do
  m.runFrom (← m.startStates) #[] input.toList

def isMatch (m : Automaton) (input : String) : Except MissingState Bool :=
  Run.accepted <$> m.run input

def traceFrom (m : Automaton) (live : StateSet) :
    List Char → Except MissingState (List (StateSet × Bool))
  | [] => return [(live, ← m.isAccepting live)]
  | c :: rest => do
    let accepting ← m.isAccepting live
    return (live, accepting) :: (← m.traceFrom (← m.advance live c) rest)

def trace (m : Automaton) (input : String) : Except MissingState (List (StateSet × Bool)) := do
  m.traceFrom (← m.startStates) input.toList

end Automaton

end PatternAutomata
