import Mathlib.Logic.Relation
import PatternAutomata.Automaton.Settle

/-!
# Paths

Reachability and paths are said on the graph of an automaton, without any search. A path spells a
word: it follows epsilon edges freely and consumes each character at a state of a given kind. With
every state allowed this is the usual notion, and a word is accepted when it is spelled by a path
from the start to an accepting state. The paths of a run consume at settled states only.
-/

namespace PatternAutomata

def State.targets (s : State) : List StateId := s.edges.toList.map Prod.snd ++ s.epsilon

theorem State.mem_targets {s : State} {t : StateId} :
    t ∈ s.targets ↔ (∃ c, s.next? c = some t) ∨ t ∈ s.epsilon := by
  simp [targets, next?, Std.ExtTreeMap.mem_toList_iff_getElem?_eq_some]

namespace Automaton

def IsSettled (m : Automaton) (id : StateId) : Prop :=
  ∃ s, m.states[id]? = some s ∧ s.epsilon = []

def Reaches (m : Automaton) : StateId → StateId → Prop :=
  Relation.ReflTransGen fun p q => q ∈ m.epsilonTargets p

def next? (m : Automaton) (id : StateId) (c : Char) : Option StateId :=
  m.states[id]?.bind (State.next? · c)

inductive Path (m : Automaton) (consumes : StateId → Prop) : StateId → List Char → StateId → Prop
  | nil (p : StateId) : Path m consumes p [] p
  | epsilon {p q r : StateId} {word : List Char} :
      q ∈ m.epsilonTargets p → Path m consumes q word r → Path m consumes p word r
  | edge {p q r : StateId} {c : Char} {word : List Char} :
      consumes p → m.next? p c = some q → Path m consumes q word r →
      Path m consumes p (c :: word) r

def AcceptingAt (m : Automaton) (id : StateId) : Prop :=
  ∃ s, m.states[id]? = some s ∧ s.accepting

def Accepts (m : Automaton) (word : List Char) : Prop :=
  ∃ q, m.Path (fun _ => True) m.start word q ∧ m.AcceptingAt q

structure Closed (m : Automaton) : Prop where
  start_lt : m.start < m.size
  target_lt : ∀ (id : StateId) (s : State), m.states[id]? = some s → ∀ t ∈ s.targets, t < m.size

/-- States with epsilon edges neither accept nor have other edges. -/
def Separated (m : Automaton) : Prop :=
  ∀ (id : StateId) (s : State), m.states[id]? = some s → s.epsilon ≠ [] →
    s.accepting = false ∧ s.edges = ∅

namespace Path

theorem append {m : Automaton} {consumes : StateId → Prop} {p q r : StateId} {u v : List Char}
    (h₁ : m.Path consumes p u q) (h₂ : m.Path consumes q v r) : m.Path consumes p (u ++ v) r := by
  induction h₁ with
  | nil p => exact h₂
  | epsilon he _ ih => exact .epsilon he (ih h₂)
  | edge hc hn _ ih => exact .edge hc hn (ih h₂)

theorem mono {m : Automaton} {P Q : StateId → Prop} (hPQ : ∀ id, P id → Q id) {p q : StateId}
    {word : List Char} (h : m.Path P p word q) : m.Path Q p word q := by
  induction h with
  | nil p => exact .nil p
  | epsilon he _ ih => exact .epsilon he ih
  | edge hc hn _ ih => exact .edge (hPQ _ hc) hn ih

theorem nil_iff_reaches {m : Automaton} {consumes : StateId → Prop} {p q : StateId} :
    m.Path consumes p [] q ↔ m.Reaches p q := by
  constructor
  · intro h
    generalize hw : ([] : List Char) = word at h
    induction h with
    | nil p => exact .refl
    | epsilon he _ ih => exact .head he (ih hw)
    | edge => cases hw
  · intro h
    induction h using Relation.ReflTransGen.head_induction_on with
    | refl => exact .nil q
    | head he _ ih => exact .epsilon he ih

end Path

end Automaton

end PatternAutomata
