import PatternAutomata.Automaton.Settle

/-!
# Depth-first search by recursion

The search of `settle` said recursively. To visit a list of states is to visit each in turn. A state
visited before is passed over; any other is marked, and then either collected, when it is settled,
or replaced by a visit to the targets of its epsilon edges. A missing state ends the whole search.
-/

namespace PatternAutomata.Automaton

structure Search where
  visited : StateSet
  settled : StateSet
  deriving DecidableEq

inductive Visits (m : Automaton) : List StateId → Search → Except MissingState Search → Prop
  | nil (search : Search) : Visits m [] search (.ok search)
  | again {id : StateId} {ids : List StateId} {search : Search} {r : Except MissingState Search} :
      id ∈ search.visited → Visits m ids search r → Visits m (id :: ids) search r
  | missing {id : StateId} {ids : List StateId} {search : Search} :
      id ∉ search.visited → m.states[id]? = none →
      Visits m (id :: ids) search (.error (m.missing id))
  | collect {id : StateId} {ids : List StateId} {search : Search} {s : State}
      {r : Except MissingState Search} :
      id ∉ search.visited → m.states[id]? = some s → s.epsilon = [] →
      Visits m ids ⟨search.visited.insert id, search.settled.insert id⟩ r →
      Visits m (id :: ids) search r
  | descend {id : StateId} {ids : List StateId} {search inner : Search} {s : State}
      {r : Except MissingState Search} :
      id ∉ search.visited → m.states[id]? = some s → s.epsilon ≠ [] →
      Visits m s.epsilon ⟨search.visited.insert id, search.settled⟩ (.ok inner) →
      Visits m ids inner r → Visits m (id :: ids) search r
  | fail {id : StateId} {ids : List StateId} {search : Search} {s : State} {e : MissingState} :
      id ∉ search.visited → m.states[id]? = some s → s.epsilon ≠ [] →
      Visits m s.epsilon ⟨search.visited.insert id, search.settled⟩ (.error e) →
      Visits m (id :: ids) search (.error e)

end PatternAutomata.Automaton
