import PatternAutomata.Automaton.Basic

/-!
# Changing an automaton

An edit transforms the automaton it is given and may fail on a missing state. What it changed before
a failure stays changed. Only the state that an edit changes is looked up: the targets of edges and
the start are stored as they are given.
-/

namespace PatternAutomata

abbrev EditM := EStateM MissingState Automaton

namespace EditM

def addState (accepting : Bool) : EditM StateId :=
  modifyGet fun ⟨states, start⟩ => (states.size, ⟨states.push (.new accepting), start⟩)

def modifyState (id : StateId) (f : State → State) : EditM Unit := fun ⟨states, start⟩ =>
  if id < states.size then
    .ok () ⟨states.modify id f, start⟩
  else
    .error (Automaton.missing ⟨states, start⟩ id) ⟨states, start⟩

theorem modifyState_of_lt {m : Automaton} {id : StateId} (h : id < m.size) (f : State → State) :
    modifyState id f m = .ok () ⟨m.states.modify id f, m.start⟩ :=
  if_pos h

theorem modifyState_of_le {m : Automaton} {id : StateId} (h : m.size ≤ id) (f : State → State) :
    modifyState id f m = .error (m.missing id) m :=
  if_neg (Nat.not_lt.2 h)

/-- A later edge for the same character replaces the earlier one. -/
def addEdge (source : StateId) (c : Char) (target : StateId) : EditM Unit :=
  modifyState source fun s => { s with edges := s.edges.insert c target }

def addEpsilon (source target : StateId) : EditM Unit :=
  modifyState source fun s => { s with epsilon := s.epsilon ++ [target] }

def setAccepting (id : StateId) (accepting : Bool) : EditM Unit :=
  modifyState id fun s => { s with accepting := accepting }

def setStart (id : StateId) : EditM Unit := modify fun m => { m with start := id }

theorem setStart_run (m : Automaton) (id : StateId) :
    setStart id m = .ok () ⟨m.states, id⟩ := rfl

def query {α : Type} (f : Automaton → Except MissingState α) : EditM α := fun m =>
  match f m with
  | .ok a => .ok a m
  | .error e => .error e m

end EditM

end PatternAutomata
