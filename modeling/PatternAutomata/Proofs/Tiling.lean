import Mathlib.Order.Interval.Set.Basic
import PatternAutomata.Proofs.Shape

/-!
# Fragments side by side

The fragments that wait in a builder divide its states among them. Each has a segment of its own,
in which the numbers are consecutive and the exit is the last one; the segments follow one another
from the first state to the last. No edge leads from one segment into another, to an entry or away
from an exit, and the exits alone accept.

A builder is a stack of expressions, so all of this is shown by putting one fragment more behind
the states that are there: its own states link up among themselves, and the old ones are as before.
-/

namespace PatternAutomata

/-- The states from `first` to `last`, and the fragment that they make up. -/
structure Segment where
  first : StateId
  last : StateId
  fragment : Fragment

namespace Segment

def states (x : Segment) : Set StateId := Set.Icc x.first x.last

/-- The segments, the latest first, follow one another without a gap from zero up to `size`. -/
def Tile : List Segment → Nat → Prop
  | [], size => size = 0
  | x :: rest, size => size = x.last + 1 ∧ x.first ≤ x.last ∧ Tile rest x.first

namespace Tile

variable {segments : List Segment} {size : Nat}

theorem covers (h : Tile segments size) (i : StateId) :
    i < size ↔ ∃ x ∈ segments, i ∈ x.states := by
  induction segments generalizing size with
  | nil =>
    obtain rfl : size = 0 := h
    simp
  | cons x rest ih =>
    obtain ⟨rfl, hle, hrest⟩ := h
    rw [List.exists_mem_cons_iff, ← ih hrest, states, Set.mem_Icc, Nat.lt_succ_iff]
    constructor
    · intro hi
      exact (Nat.lt_or_ge i x.first).symm.imp_left fun hge => ⟨hge, hi⟩
    · intro hi
      exact hi.elim And.right fun hlt => hlt.le.trans hle

theorem disjoint (h : Tile segments size) :
    segments.Pairwise fun x y => Disjoint x.states y.states := by
  induction segments generalizing size with
  | nil => exact .nil
  | cons x rest ih =>
    obtain ⟨-, -, hrest⟩ := h
    refine .cons (fun y hy => Set.disjoint_left.2 fun i hix hiy => ?_) (ih hrest)
    have hlt : i < x.first := (hrest.covers i).2 ⟨y, hy, hiy⟩
    exact absurd hix.1 (Nat.not_le.2 hlt)

end Tile

end Segment

namespace Automaton

/-- The fragment of `x` keeps to its segment and ends with it, and nothing leads back to its entry
or on from its exit. -/
structure Encloses (m : Automaton) (x : Segment) : Prop where
  target_mem : ∀ i ∈ x.states, ∀ s, m.states[i]? = some s → ∀ t ∈ s.targets, t ∈ x.states
  entry_mem : x.fragment.entry ∈ x.states
  exit_eq : x.fragment.exit = x.last
  incoming_entry : m.incoming x.fragment.entry = 0
  targets_exit : ∃ s, m.states[x.fragment.exit]? = some s ∧ s.targets = []

/-- The segments, the latest first, divide the states of `m` among their fragments, whose exits are
the accepting states. -/
structure Segmented (m : Automaton) (segments : List Segment) : Prop where
  tile : Segment.Tile segments m.size
  disjoint : segments.Pairwise fun x y => Disjoint x.states y.states
  covers : ∀ i, i < m.size ↔ ∃ x ∈ segments, i ∈ x.states
  encloses : ∀ x ∈ segments, m.Encloses x
  acceptingAt_iff : ∀ q, m.AcceptingAt q ↔ ∃ x ∈ segments, q = x.fragment.exit

theorem incoming_eq_zero_iff {m : Automaton} {q : StateId} :
    m.incoming q = 0 ↔ ∀ (i : StateId) (s : State), m.states[i]? = some s → q ∉ s.targets := by
  rw [incoming, List.count_eq_zero, List.mem_flatMap]
  constructor
  · intro h i s hs hq
    rw [← Array.getElem?_toList] at hs
    exact h ⟨s, List.mem_of_getElem? hs, hq⟩
  · intro h hq
    obtain ⟨s, hs, hq⟩ := hq
    obtain ⟨i, hi⟩ := List.getElem?_of_mem hs
    rw [Array.getElem?_toList] at hi
    exact h i s hi hq

theorem Encloses.last_lt {m : Automaton} {x : Segment} (h : m.Encloses x) : x.last < m.size := by
  obtain ⟨s, hs, -⟩ := h.targets_exit
  rw [h.exit_eq] at hs
  exact (Array.getElem?_eq_some_iff.1 hs).1

namespace Segmented

variable {m : Automaton} {segments : List Segment}

theorem nil : (ofStates []).Segmented [] where
  tile := rfl
  disjoint := .nil
  covers := by simp [size_ofStates]
  encloses := by simp
  acceptingAt_iff := by simp [AcceptingAt, ofStates]

theorem withStart (h : m.Segmented segments) (start : StateId) :
    ({ m with start := start } : Automaton).Segmented segments := by
  refine ⟨h.tile, h.disjoint, h.covers, fun x hx => ?_, h.acceptingAt_iff⟩
  have hx := h.encloses x hx
  exact ⟨hx.target_mem, hx.entry_mem, hx.exit_eq, hx.incoming_entry, hx.targets_exit⟩

theorem target_lt (h : m.Segmented segments) {i : StateId} {s : State}
    (hs : m.states[i]? = some s) {t : StateId} (ht : t ∈ s.targets) : t < m.size := by
  obtain ⟨x, hx, hi⟩ := (h.covers i).1 (Array.getElem?_eq_some_iff.1 hs).1
  exact (h.covers t).2 ⟨x, hx, (h.encloses x hx).target_mem i hi s hs t ht⟩

end Segmented

end Automaton

namespace Automaton

variable {f : Fragment} {before body : List State} {x : Segment} {segments : List Segment}

theorem Encloses.append (h : (ofStates before).Encloses x) (hf : f.Body before.length body) :
    (ofStates (before ++ (body ++ [.new true]))).Encloses x := by
  have hlast : x.last < before.length := h.last_lt
  constructor
  case target_mem =>
    intro i hi s hs t ht
    rw [Fragment.Body.old_state (hi.2.trans_lt hlast)] at hs
    exact h.target_mem i hi s hs t ht
  case entry_mem => exact h.entry_mem
  case exit_eq => exact h.exit_eq
  case incoming_entry =>
    rw [incoming_eq_zero_iff]
    intro i s hs ht
    rcases hf.state_cases hs with ⟨-, hs'⟩ | ⟨-, hbody⟩ | ⟨-, rfl⟩
    · exact incoming_eq_zero_iff.1 h.incoming_entry i s hs' ht
    · have hentry := h.entry_mem.2.trans_lt hlast
      exact absurd ((hf.links s hbody).target_bounds ht).1 (Nat.not_le.2 hentry)
    · simp at ht
  case targets_exit =>
    rw [Fragment.Body.old_state (h.exit_eq.trans_lt hlast)]
    exact h.targets_exit

theorem encloses_of_body (hf : f.Body before.length body)
    (hbefore : ∀ (i : StateId) (s : State), (ofStates before).states[i]? = some s →
      ∀ t ∈ s.targets, t < before.length) :
    (ofStates (before ++ (body ++ [.new true]))).Encloses ⟨before.length, f.exit, f⟩ := by
  constructor
  case target_mem =>
    intro i hi s hs t ht
    rcases hf.state_cases hs with ⟨hlt, -⟩ | ⟨-, hbody⟩ | ⟨-, rfl⟩
    · exact absurd hi.1 (Nat.not_le.2 hlt)
    · exact (hf.links s hbody).target_bounds ht
    · simp at ht
  case entry_mem => exact ⟨hf.base_le_entry, hf.entry_lt_exit.le⟩
  case exit_eq => rfl
  case incoming_entry =>
    rw [incoming_eq_zero_iff]
    intro i s hs ht
    rcases hf.state_cases hs with ⟨-, hs'⟩ | ⟨-, hbody⟩ | ⟨-, rfl⟩
    · exact absurd hf.base_le_entry (Nat.not_le.2 (hbefore i s hs' _ ht))
    · exact hf.entry_not_target s hbody ht
    · simp at ht
  case targets_exit => exact ⟨_, hf.exit_state, rfl⟩

theorem Segmented.append (h : (ofStates before).Segmented segments)
    (hf : f.Body before.length body) :
    (ofStates (before ++ (body ++ [.new true]))).Segmented
      (⟨before.length, f.exit, f⟩ :: segments) := by
  have hle : before.length ≤ f.exit := hf.base_le_entry.trans hf.entry_lt_exit.le
  have htile : Segment.Tile (⟨before.length, f.exit, f⟩ :: segments)
      (ofStates (before ++ (body ++ [.new true]))).size := ⟨hf.size_eq, hle, h.tile⟩
  constructor
  case tile => exact htile
  case disjoint => exact htile.disjoint
  case covers => exact htile.covers
  case encloses =>
    refine List.forall_mem_cons.2 ⟨?_, fun x hx => (h.encloses x hx).append hf⟩
    exact encloses_of_body hf fun i s hs t ht => h.target_lt hs ht
  case acceptingAt_iff =>
    intro q
    rw [hf.acceptingAt_iff, h.acceptingAt_iff, List.exists_mem_cons_iff]

end Automaton

namespace Builder

open Automaton

theorem exists_segmented_ofExprs (stack : List Expr) :
    ∃ segments : List Segment, segments.map Segment.fragment = (ofExprs stack).pending ∧
      (ofExprs stack).automaton.Segmented segments := by
  induction stack with
  | nil => exact ⟨[], rfl, .nil⟩
  | cons e stack ih =>
    obtain ⟨segments, hfragments, hsegmented⟩ := ih
    refine ⟨_ :: segments, ?_, hsegmented.append (e.fragment_body _)⟩
    rw [List.map_cons, hfragments]
    rfl

theorem exists_segmented_of_foldlM {ts : List Token} {b : Builder}
    (h : ts.foldlM apply .empty = .ok b) :
    ∃ segments : List Segment, segments.map Segment.fragment = b.pending ∧
      b.automaton.Segmented segments := by
  obtain ⟨stack, -, rfl⟩ := exists_of_foldlM_apply (ofExprs_nil ▸ h)
  exact exists_segmented_ofExprs stack

end Builder

namespace Automaton

theorem exists_segmented_of_ofPostorder {ts : List Token} {m : Automaton}
    (h : ofPostorder ts = .ok m) :
    ∃ x : Segment, m.start = x.fragment.entry ∧ m.Segmented [x] := by
  by_cases hne : ts = []
  · subst hne
    obtain rfl := Except.ok.inj (ofPostorder_nil.symm.trans h)
    have hbody : Fragment.Body ⟨0, 1⟩ 0 [.passing [1]] :=
      ⟨rfl, le_rfl, Nat.one_pos, by simpa using .onward (Nat.zero_le 1) le_rfl, by simp⟩
    exact ⟨_, rfl, (Segmented.nil.append hbody).withStart 0⟩
  · obtain ⟨e, -, -, rfl⟩ := exists_expr_of_ofPostorder hne h
    exact ⟨_, rfl, (Segmented.nil.append (e.fragment_body 0)).withStart (e.entry 0)⟩

end Automaton

namespace Builder

open Automaton

/-- However many tokens have been read, either an error has ended the building, or the fragments
that wait divide the states among them. What comes out in the end is a single segment. -/
theorem pending_partition_states :
    (∀ ts n, (∃ e, (ts.take n).foldlM apply .empty = .error e ∧ ofPostorder ts = .error e) ∨
      ∃ b segments, (ts.take n).foldlM apply .empty = .ok b ∧
        segments.map Segment.fragment = b.pending ∧ b.automaton.Segmented segments) ∧
    ∀ ts m, ofPostorder ts = .ok m →
      ∃ x : Segment, m.start = x.fragment.entry ∧ m.Segmented [x] := by
  refine ⟨fun ts n => ?_, fun ts m => exists_segmented_of_ofPostorder⟩
  cases hrun : (ts.take n).foldlM apply .empty with
  | error e => exact Or.inl ⟨e, rfl, ofPostorder_of_take_eq_error hrun⟩
  | ok b =>
    obtain ⟨segments, hfragments, hsegmented⟩ := exists_segmented_of_foldlM hrun
    exact Or.inr ⟨b, segments, rfl, hfragments, hsegmented⟩

theorem pending_partition_states_side_by_side :
    (∃ b segments, ([.literal 'a', .literal 'b', .union, .literal 'c', .star, .optional].take
        5).foldlM apply .empty = .ok b ∧
      segments.map Segment.fragment = [⟨8, 9⟩, ⟨4, 5⟩] ∧ b.automaton.Segmented segments) ∧
    ∃ m, ofPostorder [.literal 'a', .literal 'b', .union, .literal 'c', .star, .concat] = .ok m ∧
      m.start = 4 ∧ ∃ x : Segment, m.start = x.fragment.entry ∧ m.Segmented [x] := by
  constructor
  · have hrun : ([.literal 'a', .literal 'b', .union, .literal 'c', .star, .optional].take
        5).foldlM apply .empty = .ok (ofExprs [.star (.literal 'c'),
          .union (.literal 'a') (.literal 'b')]) := by
      rw [← ofExprs_nil]
      exact foldlM_apply_of_some rfl
    rcases pending_partition_states.1
        [.literal 'a', .literal 'b', .union, .literal 'c', .star, .optional] 5 with
      ⟨e, herror, -⟩ | ⟨b, segments, hb, hfragments, hsegmented⟩
    · rw [hrun] at herror
      cases herror
    · obtain rfl := Except.ok.inj (hrun.symm.trans hb)
      exact ⟨_, segments, hb, hfragments, hsegmented⟩
  · have hm := ofPostorder_postorder (e := .concat (.union (.literal 'a') (.literal 'b'))
      (.star (.literal 'c'))) rfl
    exact ⟨_, hm, rfl, pending_partition_states.2 _ _ hm⟩

end Builder

end PatternAutomata
