import PatternAutomata.Automaton.Basic

/-!
# Settled states

A state without epsilon edges is settled. `settle` follows epsilon edges from its seeds and collects
the settled states it meets; a state with epsilon edges is never in the result, also as a seed. The
search is depth first, from the last seed to the first and along epsilon edges in their order, and
expands each state at most once, so it ends on every automaton: a state that is expanded takes its
epsilon edges out of those still unexplored. It fails on the first missing state it meets.
-/

namespace PatternAutomata.Automaton

def epsilonTargets (m : Automaton) (id : StateId) : List StateId :=
  m.states[id]?.elim [] State.epsilon

/-- The epsilon edges that leave states outside `visited`, by their targets. -/
def unexplored (m : Automaton) (visited : StateSet) : List StateId :=
  (List.range m.size).flatMap fun id => if id ∈ visited then [] else m.epsilonTargets id

theorem length_flatMap_insert (f : StateId → List StateId) {visited : StateSet} {id : StateId}
    (hv : id ∉ visited) (ids : List StateId) :
    (ids.flatMap fun i => if i ∈ visited.insert id then [] else f i).length ≤
        (ids.flatMap fun i => if i ∈ visited then [] else f i).length ∧
      (id ∈ ids →
        (ids.flatMap fun i => if i ∈ visited.insert id then [] else f i).length + (f id).length ≤
          (ids.flatMap fun i => if i ∈ visited then [] else f i).length) := by
  induction ids with
  | nil => simp
  | cons i ids ih =>
    obtain ⟨hle, hlt⟩ := ih
    simp only [List.flatMap_cons, List.length_append, List.mem_cons]
    by_cases hi : id = i
    · subst hi
      rw [if_pos (by simp), if_neg hv, List.length_nil]
      exact ⟨by omega, fun _ => by omega⟩
    · have hc : i ∈ visited.insert id ↔ i ∈ visited := by simp [hi]
      simp only [hc, hi, false_or]
      exact ⟨by omega, fun h => by have := hlt h; omega⟩

theorem unexplored_insert {m : Automaton} {visited : StateSet} {id : StateId} {s : State}
    (hv : id ∉ visited) (hs : m.states[id]? = some s) :
    (m.unexplored (visited.insert id)).length + s.epsilon.length ≤
      (m.unexplored visited).length := by
  have hid : id ∈ List.range m.size :=
    List.mem_range.2 (Array.getElem?_eq_some_iff.1 hs).1
  have he : m.epsilonTargets id = s.epsilon := by simp [epsilonTargets, hs]
  simpa only [unexplored, he] using (length_flatMap_insert m.epsilonTargets hv _).2 hid

def settleFrom (m : Automaton) (stack : List StateId) (visited settled : StateSet) :
    Except MissingState StateSet :=
  match stack with
  | [] => .ok settled
  | id :: rest =>
    if _hv : id ∈ visited then
      m.settleFrom rest visited settled
    else
      match _hs : m.states[id]? with
      | none => .error (m.missing id)
      | some s =>
        m.settleFrom (s.epsilon ++ rest) (visited.insert id)
          (if s.hasEpsilon then settled else settled.insert id)
termination_by stack.length + (m.unexplored visited).length
decreasing_by
  · simp
  · have := unexplored_insert _hv _hs
    simp only [List.length_append, List.length_cons]
    omega

@[simp] theorem settleFrom_nil (m : Automaton) (visited settled : StateSet) :
    m.settleFrom [] visited settled = .ok settled := by
  rw [settleFrom]

theorem settleFrom_visited {m : Automaton} {id : StateId} {visited : StateSet}
    (hv : id ∈ visited) (rest : List StateId) (settled : StateSet) :
    m.settleFrom (id :: rest) visited settled = m.settleFrom rest visited settled := by
  rw [settleFrom, dif_pos hv]

theorem settleFrom_missing {m : Automaton} {id : StateId} {visited : StateSet}
    (hv : id ∉ visited) (hs : m.states[id]? = none) (rest : List StateId) (settled : StateSet) :
    m.settleFrom (id :: rest) visited settled = .error (m.missing id) := by
  rw [settleFrom, dif_neg hv]
  split <;> simp_all

theorem settleFrom_expand {m : Automaton} {id : StateId} {s : State} {visited : StateSet}
    (hv : id ∉ visited) (hs : m.states[id]? = some s) (rest : List StateId) (settled : StateSet) :
    m.settleFrom (id :: rest) visited settled =
      m.settleFrom (s.epsilon ++ rest) (visited.insert id)
        (if s.hasEpsilon then settled else settled.insert id) := by
  rw [settleFrom, dif_neg hv]
  split <;> simp_all

def settle (m : Automaton) (seeds : List StateId) : Except MissingState StateSet :=
  m.settleFrom seeds.reverse ∅ ∅

end PatternAutomata.Automaton
