import PatternAutomata.Automaton.Path

/-!
# What settling finds

The search of `settle` is exact on every automaton. It fails only on a missing state that epsilon
edges lead to from a seed; otherwise every state it can reach exists and the result holds exactly
the settled ones among them. During the search each epsilon edge out of a visited state leads to a
visited state or to one that waits on the stack, so nothing that is still to be found gets lost.
A state can wait more than once, but each epsilon edge puts its target on the stack once, and that
bounds the turns the search takes.
-/

namespace PatternAutomata.Automaton

variable {m : Automaton}

theorem exists_state {id : StateId} (h : id < m.size) : ∃ s, m.states[id]? = some s :=
  ⟨m.states[id], Array.getElem?_eq_getElem h⟩

theorem next?_of_some {id : StateId} {s : State} (hs : m.states[id]? = some s) (c : Char) :
    m.next? id c = s.next? c := by
  simp [next?, hs]

theorem epsilonTargets_of_some {id : StateId} {s : State} (hs : m.states[id]? = some s) :
    m.epsilonTargets id = s.epsilon := by
  simp [epsilonTargets, hs]

theorem isSettled_iff {id : StateId} {s : State} (hs : m.states[id]? = some s) :
    m.IsSettled id ↔ s.epsilon = [] := by
  simp [IsSettled, hs]

theorem IsSettled.epsilonTargets_eq {id : StateId} (h : m.IsSettled id) :
    m.epsilonTargets id = [] := by
  obtain ⟨s, hs, he⟩ := h
  rw [epsilonTargets_of_some hs, he]

theorem IsSettled.lt_size {id : StateId} (h : m.IsSettled id) : id < m.size := by
  obtain ⟨s, hs, -⟩ := h
  exact (Array.getElem?_eq_some_iff.1 hs).1

def ReachedFrom (m : Automaton) (seeds : List StateId) (q : StateId) : Prop :=
  ∃ p ∈ seeds, m.Reaches p q

@[simp] theorem not_reachedFrom_nil {q : StateId} : ¬ m.ReachedFrom [] q := by
  simp [ReachedFrom]

theorem reachedFrom_cons {p q : StateId} {seeds : List StateId} :
    m.ReachedFrom (p :: seeds) q ↔ m.Reaches p q ∨ m.ReachedFrom seeds q := by
  simp [ReachedFrom]

theorem reachedFrom_append {seeds rest : List StateId} {q : StateId} :
    m.ReachedFrom (seeds ++ rest) q ↔ m.ReachedFrom seeds q ∨ m.ReachedFrom rest q := by
  simp only [ReachedFrom, List.mem_append, or_and_right, exists_or]

theorem reachedFrom_reverse {seeds : List StateId} {q : StateId} :
    m.ReachedFrom seeds.reverse q ↔ m.ReachedFrom seeds q := by
  simp [ReachedFrom]

theorem reaches_iff {p q : StateId} :
    m.Reaches p q ↔ p = q ∨ m.ReachedFrom (m.epsilonTargets p) q :=
  Relation.ReflTransGen.cases_head_iff

/-- Visited states exist, and their epsilon edges lead to visited states or to the stack. -/
def Explored (m : Automaton) (visited : StateSet) (stack : List StateId) : Prop :=
  ∀ v ∈ visited, v < m.size ∧ ∀ t ∈ m.epsilonTargets v, t ∈ visited ∨ t ∈ stack

namespace Explored

variable {visited : StateSet} {stack rest : List StateId} {id : StateId} {s : State}

theorem empty : m.Explored ∅ stack := by
  intro v hv
  simp at hv

theorem pop (h : m.Explored visited (id :: rest)) (hv : id ∈ visited) :
    m.Explored visited rest := by
  intro v hmem
  obtain ⟨hlt, ht⟩ := h v hmem
  refine ⟨hlt, fun t hmem' => ?_⟩
  rcases ht t hmem' with h' | h'
  · exact Or.inl h'
  · rcases List.mem_cons.1 h' with rfl | h'
    · exact Or.inl hv
    · exact Or.inr h'

theorem expand (h : m.Explored visited (id :: rest)) (hs : m.states[id]? = some s) :
    m.Explored (visited.insert id) (s.epsilon ++ rest) := by
  intro v hmem
  simp only [Std.ExtTreeSet.mem_insert, Std.LawfulEqCmp.compare_eq_iff_eq] at hmem
  rcases hmem with rfl | hmem
  · refine ⟨(Array.getElem?_eq_some_iff.1 hs).1, fun t ht => ?_⟩
    rw [epsilonTargets_of_some hs] at ht
    exact Or.inr (List.mem_append_left _ ht)
  · obtain ⟨hlt, hout⟩ := h v hmem
    refine ⟨hlt, fun t ht => ?_⟩
    rcases hout t ht with h' | h'
    · exact Or.inl (by simp [h'])
    · rcases List.mem_cons.1 h' with rfl | h'
      · exact Or.inl (by simp)
      · exact Or.inr (List.mem_append_right _ h')

theorem reached (h : m.Explored visited stack) {v q : StateId} (hv : v ∈ visited)
    (hq : m.Reaches v q) : q ∈ visited ∨ m.ReachedFrom stack q := by
  induction hq using Relation.ReflTransGen.head_induction_on with
  | refl => exact Or.inl hv
  | @head p r hpr hrq ih =>
    rcases (h p hv).2 r hpr with h' | h'
    · exact ih h'
    · exact Or.inr ⟨r, h', hrq⟩

end Explored

/-- What the outcome of a search says when the search has to visit the states in `reached`. -/
def Finds (m : Automaton) (reached : StateId → Prop) : Except MissingState StateSet → Prop
  | .ok found => (∀ q, reached q → q < m.size) ∧ ∀ q, q ∈ found ↔ m.IsSettled q ∧ reached q
  | .error e => ∃ id, reached id ∧ m.size ≤ id ∧ e = m.missing id

theorem Finds.congr {P Q : StateId → Prop} (hPQ : ∀ q, P q ↔ Q q)
    {r : Except MissingState StateSet} (h : m.Finds P r) : m.Finds Q r := by
  have heq : P = Q := funext fun q => propext (hPQ q)
  exact heq ▸ h

theorem mem_settled_of_expand {visited settled : StateSet} {id : StateId} {s : State}
    (hsome : m.states[id]? = some s) (hs : ∀ q, q ∈ settled ↔ m.IsSettled q ∧ q ∈ visited)
    (q : StateId) :
    q ∈ (if s.hasEpsilon then settled else settled.insert id) ↔
      m.IsSettled q ∧ q ∈ visited.insert id := by
  have hid : m.IsSettled id ↔ s.epsilon = [] := isSettled_iff hsome
  by_cases hq : id = q
  · subst hq
    by_cases he : s.epsilon = []
    · simp [State.hasEpsilon, he, hid.2 he]
    · have hnot : ¬ m.IsSettled id := fun h => he (hid.1 h)
      simp [State.hasEpsilon, he, hs, hnot]
  · have hinsert : q ∈ visited.insert id ↔ q ∈ visited := by simp [hq]
    rw [hinsert, ← hs]
    split
    · rfl
    · simp [hq]

theorem settleFrom_finds {stack : List StateId} {visited settled : StateSet}
    (he : m.Explored visited stack)
    (hs : ∀ q, q ∈ settled ↔ m.IsSettled q ∧ q ∈ visited) :
    m.Finds (fun q => q ∈ visited ∨ m.ReachedFrom stack q)
      (m.settleFrom stack visited settled) := by
  induction stack, visited, settled using settleFrom.induct m with
  | case1 visited settled =>
    rw [settleFrom_nil]
    refine ⟨fun q hq => ?_, fun q => ?_⟩
    · rcases hq with hq | hq
      · exact (he q hq).1
      · exact absurd hq not_reachedFrom_nil
    · simpa using hs q
  | case2 visited settled id rest hv ih =>
    rw [settleFrom_visited hv]
    apply (ih (he.pop hv) hs).congr
    intro q
    rw [reachedFrom_cons]
    constructor
    · intro h
      rcases h with h | h
      · exact Or.inl h
      · exact Or.inr (Or.inr h)
    · intro h
      rcases h with h | h | h
      · exact Or.inl h
      · exact (he.pop hv).reached hv h
      · exact Or.inr h
  | case3 visited settled id rest hv hnone =>
    rw [settleFrom_missing hv hnone]
    exact ⟨id, Or.inr ⟨id, by simp, .refl⟩, Array.getElem?_eq_none_iff.1 hnone, rfl⟩
  | case4 visited settled id rest hv s hsome ih =>
    rw [settleFrom_expand hv hsome]
    apply (ih (he.expand hsome) fun q => mem_settled_of_expand hsome hs q).congr
    intro q
    · rw [reachedFrom_append, reachedFrom_cons, reaches_iff, epsilonTargets_of_some hsome]
      simp only [Std.ExtTreeSet.mem_insert, Std.LawfulEqCmp.compare_eq_iff_eq, or_assoc,
        or_left_comm]

theorem settle_finds (m : Automaton) (seeds : List StateId) :
    m.Finds (m.ReachedFrom seeds) (m.settle seeds) := by
  apply (settleFrom_finds Explored.empty fun q => by simp).congr
  intro q
  simp [reachedFrom_reverse]

theorem settle_eq_ok {seeds : List StateId} (h : ∀ q, m.ReachedFrom seeds q → q < m.size) :
    ∃ found, m.settle seeds = .ok found ∧
      ∀ q, q ∈ found ↔ m.IsSettled q ∧ m.ReachedFrom seeds q := by
  have hf := m.settle_finds seeds
  cases hr : m.settle seeds with
  | ok found =>
    rw [hr] at hf
    exact ⟨found, rfl, hf.2⟩
  | error e =>
    rw [hr] at hf
    obtain ⟨id, hid, hle, -⟩ := hf
    exact absurd (h id hid) (Nat.not_lt.2 hle)

theorem settle_eq_ok_iff {seeds : List StateId} {found : StateSet} :
    m.settle seeds = .ok found ↔ (∀ q, m.ReachedFrom seeds q → q < m.size) ∧
      ∀ q, q ∈ found ↔ m.IsSettled q ∧ m.ReachedFrom seeds q := by
  constructor
  · intro h
    have hf := m.settle_finds seeds
    rwa [h] at hf
  · intro h
    obtain ⟨hlt, hmem⟩ := h
    obtain ⟨found', hok, hmem'⟩ := settle_eq_ok hlt
    rw [hok, Std.ExtTreeSet.ext_mem fun q => (hmem' q).trans (hmem q).symm]

theorem exists_settle_eq_error_iff {seeds : List StateId} :
    (∃ e, m.settle seeds = .error e) ↔ ∃ id, m.ReachedFrom seeds id ∧ m.size ≤ id := by
  have hf := m.settle_finds seeds
  constructor
  · intro h
    obtain ⟨e, he⟩ := h
    rw [he] at hf
    obtain ⟨id, hid, hle, -⟩ := hf
    exact ⟨id, hid, hle⟩
  · intro h
    obtain ⟨id, hid, hle⟩ := h
    cases hr : m.settle seeds with
    | error e => exact ⟨e, rfl⟩
    | ok found =>
      rw [hr] at hf
      exact absurd (hf.1 id hid) (Nat.not_lt.2 hle)

/-- The search cut off after a number of turns, each of which takes one state off the stack. There
is no answer when states are left. -/
def settleWithin (m : Automaton) :
    Nat → List StateId → StateSet → StateSet → Option (Except MissingState StateSet)
  | _, [], _, settled => some (.ok settled)
  | 0, _ :: _, _, _ => none
  | turns + 1, id :: rest, visited, settled =>
    if id ∈ visited then
      m.settleWithin turns rest visited settled
    else
      match m.states[id]? with
      | none => some (.error (m.missing id))
      | some s =>
        m.settleWithin turns (s.epsilon ++ rest) (visited.insert id)
          (if s.hasEpsilon then settled else settled.insert id)

theorem settleWithin_eq_some {turns : Nat} {stack : List StateId} {visited settled : StateSet}
    (h : stack.length + (m.unexplored visited).length ≤ turns) :
    m.settleWithin turns stack visited settled = some (m.settleFrom stack visited settled) := by
  induction turns generalizing stack visited settled with
  | zero =>
    cases stack with
    | nil => rw [settleWithin, settleFrom_nil]
    | cons id rest => simp at h
  | succ turns ih =>
    cases stack with
    | nil => rw [settleWithin, settleFrom_nil]
    | cons id rest =>
      rw [List.length_cons] at h
      by_cases hv : id ∈ visited
      · rw [settleWithin, if_pos hv, settleFrom_visited hv]
        exact ih (by omega)
      · cases hs : m.states[id]? with
        | none => rw [settleWithin, if_neg hv, hs, settleFrom_missing hv hs]
        | some s =>
          have hless := unexplored_insert hv hs
          rw [settleWithin, if_neg hv, hs, settleFrom_expand hv hs]
          exact ih (by rw [List.length_append]; omega)

theorem length_unexplored_empty (m : Automaton) : (m.unexplored ∅).length = m.epsilonCount := by
  have hmap : (List.range m.size).map m.epsilonTargets = m.states.toList.map State.epsilon := by
    apply List.ext_getElem
    · simp [size]
    · intro id h₁ h₂
      have hid : id < m.states.size := by simpa using h₂
      rw [List.getElem_map, List.getElem_map, List.getElem_range,
        epsilonTargets_of_some (Array.getElem?_eq_getElem hid)]
      rfl
  simp [unexplored, epsilonCount, List.flatMap_def, hmap]

/-- The search ends within as many turns as there are seeds and epsilon edges. It fails exactly when
a missing state can be reached, and what it finds else are the settled states that can. -/
theorem settle_exact (m : Automaton) (seeds : List StateId) :
    m.settleWithin (seeds.length + m.epsilonCount) seeds.reverse ∅ ∅ = some (m.settle seeds) ∧
    ((∃ e, m.settle seeds = .error e) ↔ ∃ id, m.ReachedFrom seeds id ∧ m.size ≤ id) ∧
    ∀ found, m.settle seeds = .ok found ↔ (∀ q, m.ReachedFrom seeds q → q < m.size) ∧
      ∀ q, q ∈ found ↔ m.IsSettled q ∧ m.ReachedFrom seeds q := by
  refine ⟨settleWithin_eq_some ?_, exists_settle_eq_error_iff, fun found => settle_eq_ok_iff⟩
  exact Nat.le_of_eq (by rw [List.length_reverse, length_unexplored_empty])

end PatternAutomata.Automaton
