import PatternAutomata.Automaton.DepthFirst
import PatternAutomata.Proofs.Settling

/-!
# The order of the search

A stack and a recursion visit the same states in the same order. The recursive search always comes
to an end, and `settle` gives what it collects, or the missing state that ended it. Which state that
is can be told without a search that fails. A depth-first preorder enters each state once, a missing
one too, and in front of what its epsilon edges lead to; the search fails on the first missing state
of this order.
-/

namespace PatternAutomata.Automaton

variable {m : Automaton} {id : StateId} {ids seen order : List StateId}

namespace Visits

variable {search : Search} {s : State} {r r' : Except MissingState Search}

theorem of_visited (h : m.Visits (id :: ids) search r) (hv : id ∈ search.visited) :
    m.Visits ids search r := by
  cases h with
  | again _ h => exact h
  | missing hv' | collect hv' | descend hv' | fail hv' => exact absurd hv hv'

theorem eq_of_missing (h : m.Visits (id :: ids) search r) (hv : id ∉ search.visited)
    (hs : m.states[id]? = none) : r = .error (m.missing id) := by
  cases h with
  | again hv' => exact absurd hv' hv
  | missing => rfl
  | collect _ hs' | descend _ hs' | fail _ hs' => simp [hs] at hs'

theorem of_settled (h : m.Visits (id :: ids) search r) (hv : id ∉ search.visited)
    (hs : m.states[id]? = some s) (he : s.epsilon = []) :
    m.Visits ids ⟨search.visited.insert id, search.settled.insert id⟩ r := by
  cases h with
  | again hv' => exact absurd hv' hv
  | missing _ hs' => simp [hs] at hs'
  | collect _ _ _ h => exact h
  | descend _ hs' he' | fail _ hs' he' =>
    obtain rfl := Option.some.inj (hs.symm.trans hs')
    exact absurd he he'

theorem of_unsettled (h : m.Visits (id :: ids) search r) (hv : id ∉ search.visited)
    (hs : m.states[id]? = some s) (he : s.epsilon ≠ []) :
    (∃ inner, m.Visits s.epsilon ⟨search.visited.insert id, search.settled⟩ (.ok inner) ∧
      m.Visits ids inner r) ∨
    ∃ e, m.Visits s.epsilon ⟨search.visited.insert id, search.settled⟩ (.error e) ∧
      r = .error e := by
  cases h with
  | again hv' => exact absurd hv' hv
  | missing _ hs' => simp [hs] at hs'
  | collect _ hs' he' =>
    obtain rfl := Option.some.inj (hs.symm.trans hs')
    exact absurd he' he
  | descend _ hs' _ hin h =>
    obtain rfl := Option.some.inj (hs.symm.trans hs')
    exact Or.inl ⟨_, hin, h⟩
  | fail _ hs' _ hin =>
    obtain rfl := Option.some.inj (hs.symm.trans hs')
    exact Or.inr ⟨_, hin, rfl⟩

theorem unique (h : m.Visits ids search r) (h' : m.Visits ids search r') : r = r' := by
  induction h generalizing r' with
  | nil search =>
    cases h'
    rfl
  | again hv _ ih => exact ih (h'.of_visited hv)
  | missing hv hs => exact (h'.eq_of_missing hv hs).symm
  | collect hv hs he _ ih => exact ih (h'.of_settled hv hs he)
  | descend hv hs he _ _ ih₁ ih₂ =>
    rcases h'.of_unsettled hv hs he with ⟨inner, hin, hrest⟩ | ⟨e, hin, -⟩
    · obtain rfl := Except.ok.inj (ih₁ hin)
      exact ih₂ hrest
    · cases ih₁ hin
  | fail hv hs he _ ih =>
    rcases h'.of_unsettled hv hs he with ⟨inner, hin, -⟩ | ⟨e, hin, rfl⟩
    · cases ih hin
    · exact ih hin

end Visits

/-- Entering `ids` in depth-first preorder, where `seen` are entered already, makes `order` of
`seen`. A missing state leads nowhere. -/
inductive Enters (m : Automaton) : List StateId → List StateId → List StateId → Prop
  | nil (seen : List StateId) : Enters m [] seen seen
  | again {id : StateId} {ids seen order : List StateId} :
      id ∈ seen → Enters m ids seen order → Enters m (id :: ids) seen order
  | enter {id : StateId} {ids seen inner order : List StateId} :
      id ∉ seen → Enters m (m.epsilonTargets id) (seen ++ [id]) inner → Enters m ids inner order →
      Enters m (id :: ids) seen order

namespace Enters

theorem unique {order' : List StateId} (h : m.Enters ids seen order)
    (h' : m.Enters ids seen order') : order = order' := by
  induction h generalizing order' with
  | nil seen =>
    cases h'
    rfl
  | again hmem _ ih =>
    cases h' with
    | again _ h' => exact ih h'
    | enter hnot => exact absurd hmem hnot
  | enter hnot _ _ ih₁ ih₂ =>
    cases h' with
    | again hmem => exact absurd hmem hnot
    | enter _ h₁ h₂ =>
      obtain rfl := ih₁ h₁
      exact ih₂ h₂

end Enters

/-- What has been found once the states of `order` are entered, all of which exist. -/
def found (m : Automaton) (order : List StateId) : Search :=
  ⟨.ofList order, .ofList (order.filter fun id => (m.epsilonTargets id).isEmpty)⟩

def outcome (m : Automaton) (order : List StateId) : Except MissingState Search :=
  match order.find? (m.size ≤ ·) with
  | some id => .error (m.missing id)
  | none => .ok (m.found order)

-- State 7 is behind the first edge out of state 0, state 5 is the target of the second.
example : settle ⟨#[⟨false, ∅, [1, 5]⟩, ⟨false, ∅, [7]⟩], 0⟩ [1, 0] = .error ⟨2, 7⟩ := by cbv

end PatternAutomata.Automaton
