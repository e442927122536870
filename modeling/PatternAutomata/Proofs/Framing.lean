import PatternAutomata.Proofs.Assembly

/-!
# Rules on any states

Nobody checks the fragments that a rule is given: their exits may be missing, may coincide, or may
be the very states that the rule is about to add. A rule only looks exits up, one after the other,
and it adds its new states before it does. So it fails at the first exit that does not exist by
then, and what it did before stays: the two new states, and for a union the first exit handed over.
Whether it fails or not, it takes no edge away and touches no state but exits.
-/

namespace PatternAutomata

namespace EditM

variable {α : Type} {m m' : Automaton}

def after (x : EditM α) (m : Automaton) : Automaton :=
  match x m with
  | .ok _ m' => m'
  | .error _ m' => m'

def failure? (x : EditM α) (m : Automaton) : Option MissingState :=
  match x m with
  | .ok _ _ => none
  | .error access _ => some access

theorem outcome_of_ok {x : EditM α} {a : α} (h : x m = .ok a m') :
    x.failure? m = none ∧ x.after m = m' := by
  rw [failure?, after, h]
  exact ⟨rfl, rfl⟩

theorem outcome_of_error {x : EditM α} {access : MissingState} (h : x m = .error access m') :
    x.failure? m = some access ∧ x.after m = m' := by
  rw [failure?, after, h]
  exact ⟨rfl, rfl⟩

end EditM

/-- Has the edges of `s` in their order, and perhaps more epsilon edges behind them. -/
structure State.Extends (s s' : State) : Prop where
  edges_eq : s'.edges = s.edges
  epsilon_prefix : s.epsilon <+: s'.epsilon

theorem State.Extends.refl (s : State) : s.Extends s := ⟨rfl, List.prefix_rfl⟩

theorem State.Extends.trans {s s' s'' : State} (h : s.Extends s') (h' : s'.Extends s'') :
    s.Extends s'' :=
  ⟨h'.edges_eq.trans h.edges_eq, h.epsilon_prefix.trans h'.epsilon_prefix⟩

theorem State.extends_handOver (targets : List StateId) (s : State) :
    s.Extends (s.handOver targets) :=
  ⟨rfl, List.prefix_append _ _⟩

namespace Automaton

/-- `m'` has that many more states than `m` and the same start. Each state of `m` keeps its edges,
and those outside `changed` are the same. -/
structure Grows (added : Nat) (changed : Set StateId) (m m' : Automaton) : Prop where
  size_eq : m'.size = m.size + added
  start_eq : m'.start = m.start
  extends_state : ∀ (id : StateId) (s : State), m.states[id]? = some s →
    ∃ s', m'.states[id]? = some s' ∧ s.Extends s'
  frame : ∀ id < m.size, id ∉ changed → m'.states[id]? = m.states[id]?

namespace Grows

variable {added : Nat} {changed : Set StateId} {m m' : Automaton}

theorem refl (changed : Set StateId) (m : Automaton) : Grows 0 changed m m :=
  ⟨rfl, rfl, fun _ s hs => ⟨s, hs, .refl s⟩, fun _ _ _ => rfl⟩

theorem grow (h : Grows added changed m m') (s : State) :
    Grows (added + 1) changed m (m'.grow s) where
  size_eq := by rw [size_grow, h.size_eq, Nat.add_assoc]
  start_eq := h.start_eq
  extends_state id t ht := by
    obtain ⟨t', ht', hext⟩ := h.extends_state id t ht
    have hid : id < m'.size := (Array.getElem?_eq_some_iff.1 ht').1
    exact ⟨t', (getElem?_grow_of_lt hid).trans ht', hext⟩
  frame id hid hout := by
    have hid' : id < m'.size := by
      rw [h.size_eq]
      exact Nat.lt_add_right added hid
    exact (getElem?_grow_of_lt hid').trans (h.frame id hid hout)

theorem handOver (h : Grows added changed m m') {exit : StateId} (hexit : exit ∈ changed)
    (targets : List StateId) :
    Grows added changed m (m'.modify exit (State.handOver targets)) where
  size_eq := size_modify.trans h.size_eq
  start_eq := h.start_eq
  extends_state id s hs := by
    obtain ⟨s', hs', hext⟩ := h.extends_state id s hs
    by_cases hid : id = exit
    · subst hid
      exact ⟨_, getElem?_modify_self hs', hext.trans (s'.extends_handOver targets)⟩
    · exact ⟨s', (getElem?_modify_of_ne hid).trans hs', hext⟩
  frame id hid hout := by
    have hne : id ≠ exit := fun heq => hout (heq ▸ hexit)
    exact (getElem?_modify_of_ne hne).trans (h.frame id hid hout)

theorem grow_grow (changed : Set StateId) (m : Automaton) (s t : State) :
    Grows 2 changed m ((m.grow s).grow t) :=
  ((refl changed m).grow s).grow t

end Grows

end Automaton

namespace Fragment

open EditM Automaton

variable {m : Automaton} {f g : Fragment}

theorem concat_of_le (h : m.size ≤ f.exit) (g : Fragment) :
    f.concat g m = .error ⟨m.size, f.exit⟩ m := by
  rw [concat_eq_handOver, bind_of_error (handOver_of_le h _)]
  rfl

theorem closure_of_le (h : m.size + 2 ≤ f.exit) :
    f.closure m = .error ⟨m.size + 2, f.exit⟩
      ((m.grow (.passing [m.size + 1, f.entry])).grow (.new true)) := by
  rw [closure_eq_handOver, bind_of_error (handOver_of_le (size_grow_grow.trans_le h) _), missing,
    size_grow_grow]

theorem union_of_le_first (h : m.size + 2 ≤ f.exit) (g : Fragment) :
    f.union g m = .error ⟨m.size + 2, f.exit⟩
      ((m.grow (.passing [f.entry, g.entry])).grow (.new true)) := by
  rw [union_eq_handOver, bind_of_error (handOver_of_le (size_grow_grow.trans_le h) _), missing,
    size_grow_grow]

/-- The first exit has been handed over by the time the second one is looked up. -/
theorem union_of_le_second (hf : f.exit < m.size + 2) (hg : m.size + 2 ≤ g.exit) :
    f.union g m = .error ⟨m.size + 2, g.exit⟩
      (((m.grow (.passing [f.entry, g.entry])).grow (.new true)).modify f.exit
        (State.handOver [m.size + 1])) := by
  have hsize : (((m.grow (.passing [f.entry, g.entry])).grow (.new true)).modify f.exit
      (State.handOver [m.size + 1])).size = m.size + 2 := size_modify.trans size_grow_grow
  rw [union_eq_handOver, bind_of_ok (handOver_eq (lt_size_grow_grow hf) _),
    bind_of_error (handOver_of_le (hsize.trans_le hg) _), missing, hsize]

/-- A concatenation fails when its first exit is missing, and then changes nothing. -/
structure ConcatFrame (m : Automaton) (f g : Fragment) : Prop where
  failure?_eq : (f.concat g).failure? m =
    if m.size ≤ f.exit then some ⟨m.size, f.exit⟩ else none
  grows : m.Grows 0 {f.exit} ((f.concat g).after m)
  unchanged : m.size ≤ f.exit → (f.concat g).after m = m

/-- A closure fails when its exit is missing even beside the two states it has added, and then
changes no other state. -/
structure ClosureFrame (m : Automaton) (f : Fragment) : Prop where
  failure?_eq : f.closure.failure? m =
    if m.size + 2 ≤ f.exit then some ⟨m.size + 2, f.exit⟩ else none
  grows : m.Grows 2 {f.exit} (f.closure.after m)
  unchanged : m.size + 2 ≤ f.exit → m.Grows 2 ∅ (f.closure.after m)

/-- A union fails when one of its exits is missing even beside the two states it has added. It then
changes no other state but the first exit, which it hands over to the new exit if it was there. -/
structure UnionFrame (m : Automaton) (f g : Fragment) : Prop where
  failure?_eq : (f.union g).failure? m =
    if m.size + 2 ≤ f.exit then some ⟨m.size + 2, f.exit⟩
    else if m.size + 2 ≤ g.exit then some ⟨m.size + 2, g.exit⟩ else none
  grows : m.Grows 2 {f.exit, g.exit} ((f.union g).after m)
  unchanged : m.size + 2 ≤ f.exit ∨ m.size + 2 ≤ g.exit → m.Grows 2 {f.exit} ((f.union g).after m)
  handedOver : m.size + 2 ≤ f.exit ∨ m.size + 2 ≤ g.exit → ∀ s, m.states[f.exit]? = some s →
    ((f.union g).after m).states[f.exit]? = some (s.handOver [m.size + 1])

theorem concatFrame (m : Automaton) (f g : Fragment) : ConcatFrame m f g := by
  rcases Nat.lt_or_ge f.exit m.size with hf | hf
  · obtain ⟨hfailure, hafter⟩ := outcome_of_ok (concat_eq hf g)
    exact {
      failure?_eq := by rw [hfailure, if_neg (Nat.not_le.2 hf)]
      grows := by
        rw [hafter]
        exact (Grows.refl _ m).handOver (Set.mem_singleton _) _
      unchanged := fun h => absurd hf (Nat.not_lt.2 h) }
  · obtain ⟨hfailure, hafter⟩ := outcome_of_error (concat_of_le hf g)
    exact {
      failure?_eq := by rw [hfailure, if_pos hf]
      grows := by
        rw [hafter]
        exact .refl _ m
      unchanged := fun _ => hafter }

theorem closureFrame (m : Automaton) (f : Fragment) : ClosureFrame m f := by
  rcases Nat.lt_or_ge f.exit (m.size + 2) with hf | hf
  · obtain ⟨hfailure, hafter⟩ := outcome_of_ok (closure_eq hf)
    exact {
      failure?_eq := by rw [hfailure, if_neg (Nat.not_le.2 hf)]
      grows := by
        rw [hafter]
        exact (Grows.grow_grow _ m _ _).handOver (Set.mem_singleton _) _
      unchanged := fun h => absurd hf (Nat.not_lt.2 h) }
  · obtain ⟨hfailure, hafter⟩ := outcome_of_error (closure_of_le hf)
    have hgrows : ∀ changed, m.Grows 2 changed (f.closure.after m) := by
      intro changed
      rw [hafter]
      exact .grow_grow changed m _ _
    exact {
      failure?_eq := by rw [hfailure, if_pos hf]
      grows := hgrows _
      unchanged := fun _ => hgrows ∅ }

theorem unionFrame_of_lt {m : Automaton} {f g : Fragment} (hf : f.exit < m.size + 2)
    (hg : g.exit < m.size + 2) : UnionFrame m f g := by
  obtain ⟨hfailure, hafter⟩ := outcome_of_ok (union_eq hf hg)
  have hpresent : ¬ (m.size + 2 ≤ f.exit ∨ m.size + 2 ≤ g.exit) :=
    not_or.2 ⟨Nat.not_le.2 hf, Nat.not_le.2 hg⟩
  exact {
    failure?_eq := by rw [hfailure, if_neg (Nat.not_le.2 hf), if_neg (Nat.not_le.2 hg)]
    grows := by
      have hfirst := (Grows.grow_grow {f.exit, g.exit} m (.passing [f.entry, g.entry])
        (.new true)).handOver (Set.mem_insert _ _) [m.size + 1]
      rw [hafter]
      exact hfirst.handOver (Set.mem_insert_of_mem _ (Set.mem_singleton _)) _
    unchanged := fun h => absurd h hpresent
    handedOver := fun h => absurd h hpresent }

theorem unionFrame_of_le_second {m : Automaton} {f g : Fragment} (hf : f.exit < m.size + 2)
    (hg : m.size + 2 ≤ g.exit) : UnionFrame m f g := by
  obtain ⟨hfailure, hafter⟩ := outcome_of_error (union_of_le_second hf hg)
  have hgrows : ∀ changed : Set StateId, f.exit ∈ changed →
      m.Grows 2 changed ((f.union g).after m) := by
    intro changed hchanged
    rw [hafter]
    exact (Grows.grow_grow _ m _ _).handOver hchanged _
  exact {
    failure?_eq := by rw [hfailure, if_neg (Nat.not_le.2 hf), if_pos hg]
    grows := hgrows _ (Set.mem_insert _ _)
    unchanged := fun _ => hgrows _ (Set.mem_singleton _)
    handedOver := by
      intro _ s hs
      have hold : f.exit < m.size := (Array.getElem?_eq_some_iff.1 hs).1
      rw [hafter]
      exact getElem?_modify_self ((getElem?_wrapped_of_lt hold).trans hs) }

theorem unionFrame_of_le_first {m : Automaton} {f : Fragment} (hf : m.size + 2 ≤ f.exit)
    (g : Fragment) : UnionFrame m f g := by
  obtain ⟨hfailure, hafter⟩ := outcome_of_error (union_of_le_first hf g)
  have hgrows : ∀ changed, m.Grows 2 changed ((f.union g).after m) := by
    intro changed
    rw [hafter]
    exact .grow_grow changed m _ _
  exact {
    failure?_eq := by rw [hfailure, if_pos hf]
    grows := hgrows _
    unchanged := fun _ => hgrows _
    handedOver := by
      intro _ s hs
      have hold : f.exit < m.size := (Array.getElem?_eq_some_iff.1 hs).1
      exact absurd (Nat.lt_add_right 2 hold) (Nat.not_lt.2 hf) }

theorem unionFrame (m : Automaton) (f g : Fragment) : UnionFrame m f g := by
  rcases Nat.lt_or_ge f.exit (m.size + 2) with hf | hf
  · rcases Nat.lt_or_ge g.exit (m.size + 2) with hg | hg
    · exact unionFrame_of_lt hf hg
    · exact unionFrame_of_le_second hf hg
  · exact unionFrame_of_le_first hf g

/-- The rules fail at the first exit that is missing and keep what they did before. Whether they
fail or not, they add their states, take no edge away and change no state but exits. -/
theorem rules_on_arbitrary_ids (m : Automaton) (f g : Fragment) :
    ConcatFrame m f g ∧ ClosureFrame m f ∧ UnionFrame m f g :=
  ⟨concatFrame m f g, closureFrame m f, unionFrame m f g⟩

theorem rules_on_arbitrary_ids_dangling :
    ∃ (m : Automaton) (f g : Fragment), m.states = #[.new true] ∧ f.exit = 0 ∧ g.exit = 7 ∧
      (g.concat f).failure? m = some ⟨1, 7⟩ ∧ (g.concat f).after m = m ∧
      g.closure.failure? m = some ⟨3, 7⟩ ∧ m.Grows 2 ∅ (g.closure.after m) ∧
      (f.union g).failure? m = some ⟨3, 7⟩ ∧ m.Grows 2 {f.exit} ((f.union g).after m) ∧
      ((f.union g).after m).states[0]? = some ((State.new true).handOver [2]) := by
  refine ⟨⟨#[.new true], 0⟩, ⟨0, 0⟩, ⟨5, 7⟩, rfl, rfl, rfl, ?_⟩
  obtain ⟨-, -, hunion⟩ := rules_on_arbitrary_ids ⟨#[.new true], 0⟩ ⟨0, 0⟩ ⟨5, 7⟩
  obtain ⟨hconcat, hclosure, -⟩ := rules_on_arbitrary_ids ⟨#[.new true], 0⟩ ⟨5, 7⟩ ⟨0, 0⟩
  exact ⟨hconcat.failure?_eq, hconcat.unchanged (by decide), hclosure.failure?_eq,
    hclosure.unchanged (by decide), hunion.failure?_eq, hunion.unchanged (by decide),
    hunion.handedOver (by decide) _ rfl⟩

-- The exits may be the states that the rule adds.
example : (Fragment.union ⟨0, 0⟩ ⟨0, 1⟩).failure? .empty = none := by decide

end Fragment

end PatternAutomata
