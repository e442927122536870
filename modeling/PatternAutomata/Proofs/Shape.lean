import PatternAutomata.Height
import PatternAutomata.Proofs.Layout

/-!
# The shape of an automaton

How many states and edges there are can be told from the tokens: a literal, a union and a star add
two states each, a literal has one edge, a union or a star four epsilon edges, and a concatenation
one. Every state but the last reads one character or passes on to one or two others, and every state
but the start is entered from one or two places. All of it holds of the states of an expression
before it holds of a whole automaton.
-/

namespace PatternAutomata

namespace State

/-- Reads one character, or passes on to one or two different states; its targets lie between `lo`
and `hi`. -/
inductive Links (lo hi : Nat) : State → Prop
  | reading (c : Char) {t : Nat} : lo ≤ t → t ≤ hi → Links lo hi (.reading c t)
  | onward {t : Nat} : lo ≤ t → t ≤ hi → Links lo hi (.passing [t])
  | choice {t u : Nat} : t ≠ u → lo ≤ t → t ≤ hi → lo ≤ u → u ≤ hi → Links lo hi (.passing [t, u])

theorem Links.mono {lo hi lo' hi' : Nat} {s : State} (h : s.Links lo hi) (hlo : lo' ≤ lo)
    (hhi : hi ≤ hi') : s.Links lo' hi' := by
  cases h with
  | reading c h₁ h₂ => exact .reading c (hlo.trans h₁) (h₂.trans hhi)
  | onward h₁ h₂ => exact .onward (hlo.trans h₁) (h₂.trans hhi)
  | choice hne h₁ h₂ h₃ h₄ =>
    exact .choice hne (hlo.trans h₁) (h₂.trans hhi) (hlo.trans h₃) (h₄.trans hhi)

theorem toList_edges_reading (c : Char) (t : StateId) : (reading c t).edges.toList = [(c, t)] := by
  have hlen : (reading c t).edges.toList.length = 1 := by
    simp [reading, Std.ExtTreeMap.length_toList, Std.ExtTreeMap.size_insert]
  obtain ⟨p, hp⟩ := List.length_eq_one_iff.1 hlen
  have hmem : (c, t) ∈ (reading c t).edges.toList := by
    simp [reading, Std.ExtTreeMap.mem_toList_iff_getElem?_eq_some]
  rw [hp, List.mem_singleton] at hmem
  rw [hp, hmem]

@[simp] theorem targets_reading (c : Char) (t : StateId) : (reading c t).targets = [t] := by
  rw [targets, toList_edges_reading]
  rfl

@[simp] theorem targets_passing (ts : List StateId) : (passing ts).targets = ts := rfl

theorem epsilon_passing (ts : List StateId) : (passing ts).epsilon = ts := rfl

@[simp] theorem targets_new (b : Bool) : (new b).targets = [] := rfl

namespace Links

variable {lo hi : Nat} {s : State}

theorem not_accepting (h : s.Links lo hi) : s.accepting = false := by
  cases h <;> rfl

theorem targets_ne_nil (h : s.Links lo hi) : s.targets ≠ [] := by
  cases h <;> simp

theorem target_bounds (h : s.Links lo hi) {t : Nat} (ht : t ∈ s.targets) : lo ≤ t ∧ t ≤ hi := by
  cases h with
  | reading c h₁ h₂ =>
    rw [targets_reading, List.mem_singleton] at ht
    exact ht ▸ ⟨h₁, h₂⟩
  | onward h₁ h₂ =>
    rw [targets_passing, List.mem_singleton] at ht
    exact ht ▸ ⟨h₁, h₂⟩
  | choice _ h₁ h₂ h₃ h₄ =>
    rw [targets_passing, List.mem_pair] at ht
    rcases ht with rfl | rfl
    · exact ⟨h₁, h₂⟩
    · exact ⟨h₃, h₄⟩

theorem reads_or_passes (h : s.Links lo hi) :
    s.edges.size = 1 ∧ s.epsilon = [] ∨
      s.edges.size = 0 ∧ (s.epsilon.length = 1 ∨ s.epsilon.length = 2) ∧ s.epsilon.Nodup := by
  cases h with
  | @reading c t _ _ =>
    left
    rw [← Std.ExtTreeMap.length_toList, toList_edges_reading]
    exact ⟨rfl, rfl⟩
  | onward => exact Or.inr ⟨rfl, Or.inl rfl, List.nodup_singleton _⟩
  | choice hne => exact Or.inr ⟨rfl, Or.inr rfl, by simpa [passing] using hne⟩

end Links

end State

def Token.addsStates : Token → Bool
  | .literal _ | .union | .star => true
  | .concat | .optional | .plus | .openParen | .closeParen => false

/-- The edges of the literals in `ts`, as source, character and target, when states are numbered
from `base` on. -/
def literalEdges : Nat → List Token → List (StateId × Char × StateId)
  | _, [] => []
  | base, .literal c :: ts => (base, c, base + 1) :: literalEdges (base + 2) ts
  | base, t :: ts => literalEdges (if t.addsStates then base + 2 else base) ts

theorem literalEdges_cons (base : Nat) (t : Token) (ts : List Token) :
    literalEdges base (t :: ts) =
      literalEdges base [t] ++ literalEdges (base + 2 * [t].countP Token.addsStates) ts := by
  cases t <;> rfl

theorem literalEdges_append (base : Nat) (ts us : List Token) :
    literalEdges base (ts ++ us) =
      literalEdges base ts ++ literalEdges (base + 2 * ts.countP Token.addsStates) us := by
  induction ts generalizing base with
  | nil => rfl
  | cons t ts ih =>
    have hcount : ([t] ++ ts).countP Token.addsStates =
        [t].countP Token.addsStates + ts.countP Token.addsStates := List.countP_append
    rw [List.singleton_append] at hcount
    rw [List.cons_append, literalEdges_cons, ih, literalEdges_cons base t ts, List.append_assoc,
      hcount, Nat.mul_add, Nat.add_assoc]

theorem length_literalEdges (base : Nat) (ts : List Token) :
    (literalEdges base ts).length = ts.countP Token.isLiteral := by
  induction ts generalizing base with
  | nil => rfl
  | cons t ts ih => cases t <;> simp [literalEdges, List.countP_cons, Token.isLiteral, ih]

theorem countP_addsStates (ts : List Token) :
    ts.countP Token.addsStates = ts.countP Token.isLiteral + ts.count .union + ts.count .star := by
  induction ts with
  | nil => rfl
  | cons t ts ih =>
    cases t <;> simp [List.countP_cons, Token.addsStates, Token.isLiteral, ih] <;> omega

def edgesFrom (base : Nat) (states : List State) : List (StateId × Char × StateId) :=
  (states.zipIdx base).flatMap fun (s, id) => s.edges.toList.map fun (c, target) => (id, c, target)

theorem edgesFrom_nil (base : Nat) : edgesFrom base [] = [] := rfl

theorem edgesFrom_append (base : Nat) (states states' : List State) :
    edgesFrom base (states ++ states') =
      edgesFrom base states ++ edgesFrom (base + states.length) states' := by
  rw [edgesFrom, List.zipIdx_append, List.flatMap_append]
  rfl

theorem edgesFrom_reading (base : Nat) (c : Char) (t : StateId) (states : List State) :
    edgesFrom base (.reading c t :: states) = (base, c, t) :: edgesFrom (base + 1) states := by
  simp [edgesFrom, List.zipIdx_cons, State.toList_edges_reading]

theorem edgesFrom_passing (base : Nat) (targets : List StateId) (states : List State) :
    edgesFrom base (.passing targets :: states) = edgesFrom (base + 1) states := by
  simp [edgesFrom, List.zipIdx_cons, State.passing]

namespace Expr

theorem exit_add_one (e : Expr) (base : Nat) :
    e.exit base + 1 = base + 2 * e.postorder.countP Token.addsStates := by
  induction e generalizing base with
  | literal c => rfl
  | concat e f ihe ihf | union e f ihe ihf =>
    have he := ihe base
    have hf := ihf (e.exit base + 1)
    simp only [exit, postorder, List.countP_append, List.countP_singleton, Token.addsStates]
    simp only [Bool.false_eq_true, if_false, if_true]
    omega
  | star e ih | optional e ih | plus e ih =>
    have he := ih base
    simp only [exit, postorder, List.countP_append, List.countP_singleton, Token.addsStates]
    simp only [Bool.false_eq_true, if_false, if_true]
    omega

theorem edgesFrom_body (e : Expr) (base : Nat) :
    edgesFrom base (e.body base) = literalEdges base e.postorder := by
  induction e generalizing base with
  | literal c => exact edgesFrom_reading base c (base + 1) []
  | concat e f ihe ihf | union e f ihe ihf =>
    simp only [body, postorder, edgesFrom_append, literalEdges_append, edgesFrom_passing,
      edgesFrom_nil, literalEdges, List.append_nil, ihe, ihf, base_add_length_body, ← exit_add_one]
  | star e ih | optional e ih | plus e ih =>
    simp only [body, postorder, edgesFrom_append, literalEdges_append, edgesFrom_passing,
      edgesFrom_nil, literalEdges, List.append_nil, ih]

theorem length_epsilon_body (e : Expr) (base : Nat) :
    ((e.body base).flatMap State.epsilon).length =
      4 * (e.postorder.count .union + e.postorder.count .star) + e.postorder.count .concat := by
  induction e generalizing base with
  | literal c => simp [body, postorder, State.reading]
  | concat e f ihe ihf | union e f ihe ihf =>
    simp only [body, postorder, List.flatMap_append, List.flatMap_cons, List.flatMap_nil,
      List.length_append, State.epsilon_passing, List.length_cons, List.length_nil, ihe, ihf,
      List.count_append, List.count_singleton, beq_iff_eq, reduceCtorEq, if_true, if_false]
    omega
  | star e ih =>
    simp only [body, postorder, List.flatMap_append, List.flatMap_cons, List.flatMap_nil,
      List.length_append, State.epsilon_passing, List.length_cons, List.length_nil, ih,
      List.count_append, List.count_singleton, beq_iff_eq, reduceCtorEq, if_true, if_false]
    omega
  | optional e ih | plus e ih => simp [body, postorder, -List.length_flatMap, ih]

theorem links_body (e : Expr) (base : Nat) :
    ∀ s ∈ e.body base, s.Links base (e.exit base) := by
  induction e generalizing base with
  | literal c =>
    intro s hs
    obtain rfl := List.mem_singleton.1 hs
    exact .reading c (Nat.le_succ base) le_rfl
  | concat e f ihe ihf =>
    have he := e.entry_bounds base
    have hf := f.entry_bounds (e.exit base + 1)
    intro s hs
    simp only [body, List.mem_append, List.mem_cons] at hs
    simp only [exit]
    rcases hs with hs | rfl | hs
    · exact (ihe base s hs).mono le_rfl (by omega)
    · exact .onward (by omega) (by omega)
    · exact (ihf _ s hs).mono (by omega) le_rfl
  | union e f ihe ihf =>
    have he := e.entry_bounds base
    have hf := f.entry_bounds (e.exit base + 1)
    intro s hs
    simp only [body, List.mem_append, List.mem_cons, List.not_mem_nil, or_false] at hs
    simp only [exit]
    rcases hs with (hs | rfl | hs) | rfl | rfl
    · exact (ihe base s hs).mono le_rfl (by omega)
    · exact .onward (by omega) (by omega)
    · exact (ihf _ s hs).mono (by omega) (by omega)
    · exact .onward (by omega) (by omega)
    · exact .choice (by omega) (by omega) (by omega) (by omega) (by omega)
  | star e ih =>
    have he := e.entry_bounds base
    intro s hs
    simp only [body, List.mem_append, List.mem_cons, List.not_mem_nil, or_false, or_self] at hs
    simp only [exit]
    rcases hs with hs | rfl
    · exact (ih base s hs).mono le_rfl (by omega)
    · exact .choice (by omega) (by omega) (by omega) (by omega) (by omega)
  | optional e ih | plus e ih => exact ih base

theorem count_targets_body (e : Expr) (base q : Nat) :
    (q = e.entry base ∨ q < base ∨ e.exit base < q →
      ((e.body base).flatMap State.targets).count q = 0) ∧
    (base ≤ q → q ≤ e.exit base → q ≠ e.entry base →
      1 ≤ ((e.body base).flatMap State.targets).count q ∧
        ((e.body base).flatMap State.targets).count q ≤ 2) := by
  induction e generalizing base with
  | literal c =>
    simp only [body, entry, exit, List.flatMap_cons, List.flatMap_nil, State.targets_reading,
      List.append_nil, List.count_cons, List.count_nil, beq_iff_eq]
    split_ifs <;> omega
  | concat e f ihe ihf =>
    have he := e.entry_bounds base
    have hf := f.entry_bounds (e.exit base + 1)
    have hcount := ihe base
    have hcount' := ihf (e.exit base + 1)
    simp only [body, entry, exit, List.flatMap_append, List.flatMap_cons, List.count_append,
      State.targets_passing, List.count_cons, List.count_nil, beq_iff_eq]
    split_ifs <;> omega
  | union e f ihe ihf =>
    -- the new edges lead to the operands' entries and to the new exit, and no old edge leads there
    have he := e.entry_bounds base
    have hf := f.entry_bounds (e.exit base + 1)
    have hcount := ihe base
    have hcount' := ihf (e.exit base + 1)
    simp only [body, entry, exit, List.flatMap_append, List.flatMap_cons, List.flatMap_nil,
      List.count_append, State.targets_passing, List.count_cons, List.count_nil, beq_iff_eq]
    split_ifs <;> omega
  | star e ih =>
    have he := e.entry_bounds base
    have hcount := ih base
    simp only [body, entry, exit, List.flatMap_append, List.flatMap_cons, List.flatMap_nil,
      List.count_append, State.targets_passing, List.count_cons, List.count_nil, beq_iff_eq]
    split_ifs <;> omega
  | optional e ih | plus e ih => exact ih base

end Expr

/-- States that are numbered from `base` on and, with the exit of `f` behind them, make up `f`: they
lead on among themselves and to the exit, and never back to the entry. -/
structure Fragment.Body (f : Fragment) (base : Nat) (body : List State) : Prop where
  base_add_length : base + body.length = f.exit
  base_le_entry : base ≤ f.entry
  entry_lt_exit : f.entry < f.exit
  links : ∀ s ∈ body, s.Links base f.exit
  entry_not_target : ∀ s ∈ body, f.entry ∉ s.targets

theorem Expr.fragment_body (e : Expr) (base : Nat) :
    (e.fragment base).Body base (e.body base) where
  base_add_length := e.base_add_length_body base
  base_le_entry := (e.entry_bounds base).1
  entry_lt_exit := (e.entry_bounds base).2
  links := e.links_body base
  entry_not_target := by
    have hcount := (e.count_targets_body base (e.entry base)).1 (Or.inl rfl)
    intro s hs ht
    exact List.count_eq_zero.1 hcount (List.mem_flatMap.2 ⟨s, hs, ht⟩)

namespace Fragment.Body

open Automaton

variable {f : Fragment} {before body : List State} {i : Nat} {s : State}

theorem size_eq (hf : f.Body before.length body) :
    (ofStates (before ++ (body ++ [.new true]))).size = f.exit + 1 := by
  rw [size_ofStates, List.length_append, List.length_append, ← hf.base_add_length]
  rfl

theorem exit_state (hf : f.Body before.length body) :
    (ofStates (before ++ (body ++ [.new true]))).states[f.exit]? = some (.new true) := by
  rw [ofStates, List.getElem?_toArray, ← hf.base_add_length, ← List.append_assoc,
    ← List.length_append, List.getElem?_concat_length]

theorem old_state (hi : i < before.length) (body : List State) :
    (ofStates (before ++ body)).states[i]? = (ofStates before).states[i]? := by
  rw [ofStates, ofStates, List.getElem?_toArray, List.getElem?_toArray,
    List.getElem?_append_left hi]

theorem state_cases (hf : f.Body before.length body)
    (hs : (ofStates (before ++ (body ++ [.new true]))).states[i]? = some s) :
    i < before.length ∧ (ofStates before).states[i]? = some s ∨
      (before.length ≤ i ∧ i < f.exit) ∧ s ∈ body ∨ i = f.exit ∧ s = .new true := by
  rcases Nat.lt_or_ge i before.length with hlt | hge
  · rw [old_state hlt] at hs
    exact Or.inl ⟨hlt, hs⟩
  · have hlength := hf.base_add_length
    rw [ofStates, List.getElem?_toArray, List.getElem?_append_right hge] at hs
    rcases Nat.lt_or_ge (i - before.length) body.length with hlt | hge'
    · rw [List.getElem?_append_left hlt] at hs
      exact Or.inr (.inl ⟨⟨hge, by omega⟩, List.mem_of_getElem? hs⟩)
    · obtain ⟨hlast, rfl⟩ := List.getElem?_eq_some_iff.1
        ((List.getElem?_append_right hge').symm.trans hs)
      have hi : i = f.exit := by
        rw [List.length_singleton] at hlast
        omega
      exact Or.inr (.inr ⟨hi, by simp⟩)

theorem acceptingAt_iff (hf : f.Body before.length body) (q : StateId) :
    (ofStates (before ++ (body ++ [.new true]))).AcceptingAt q ↔
      q = f.exit ∨ (ofStates before).AcceptingAt q := by
  constructor
  · intro hq
    obtain ⟨s, hs, hacc⟩ := hq
    rcases hf.state_cases hs with ⟨-, hs'⟩ | ⟨-, hbody⟩ | ⟨hq, -⟩
    · exact Or.inr ⟨s, hs', hacc⟩
    · simp [(hf.links s hbody).not_accepting] at hacc
    · exact Or.inl hq
  · intro hq
    rcases hq with rfl | ⟨s, hs, hacc⟩
    · exact ⟨_, hf.exit_state, rfl⟩
    · have hlt : q < before.length := (Array.getElem?_eq_some_iff.1 hs).1
      exact ⟨s, (old_state hlt _).trans hs, hacc⟩

end Fragment.Body

namespace Automaton

def edges (m : Automaton) : List (StateId × Char × StateId) := edgesFrom 0 m.states.toList

def incoming (m : Automaton) (q : StateId) : Nat :=
  (m.states.toList.flatMap State.targets).count q

structure Shaped (m : Automaton) (ts : List Token) : Prop where
  size_eq : m.size = 2 * (ts.countP Token.isLiteral + ts.count .union + ts.count .star)
  length_edges : m.edges.length = ts.countP Token.isLiteral
  epsilonCount_eq : m.epsilonCount = 4 * (ts.count .union + ts.count .star) + ts.count .concat
  closed : m.Closed
  acceptingAt_iff : ∀ q, m.AcceptingAt q ↔ q + 1 = m.size
  targets_eq_nil_iff : ∀ q s, m.states[q]? = some s → (s.targets = [] ↔ q + 1 = m.size)
  edges_eq : m.edges = literalEdges 0 ts
  inner : ∀ q s, m.states[q]? = some s → q + 1 ≠ m.size →
    s.edges.size = 1 ∧ s.epsilon = [] ∨
      s.edges.size = 0 ∧ (s.epsilon.length = 1 ∨ s.epsilon.length = 2) ∧ s.epsilon.Nodup
  incoming_start : m.incoming m.start = 0
  incoming_of_ne_start : ∀ q < m.size, q ≠ m.start → m.incoming q = 1 ∨ m.incoming q = 2

end Automaton

namespace Expr

variable {e : Expr}

theorem automaton_body (e : Expr) : (e.fragment 0).Body ([] : List State).length (e.body 0) :=
  e.fragment_body 0

theorem size_automaton (e : Expr) : e.automaton.size = e.exit 0 + 1 := e.automaton_body.size_eq

theorem automaton_cases {q : Nat} {s : State} (h : e.automaton.states[q]? = some s) :
    q = e.exit 0 ∧ s = .new true ∨ q < e.exit 0 ∧ s.Links 0 (e.exit 0) := by
  rcases e.automaton_body.state_cases h with ⟨hlt, -⟩ | ⟨⟨-, hlt⟩, hbody⟩ | hexit
  · exact absurd hlt (Nat.not_lt_zero q)
  · exact Or.inr ⟨hlt, e.automaton_body.links s hbody⟩
  · exact Or.inl hexit

theorem incoming_automaton (e : Expr) (q : Nat) :
    e.automaton.incoming q = ((e.body 0).flatMap State.targets).count q := by
  simp [automaton, Automaton.incoming, block]

theorem edges_automaton (e : Expr) : e.automaton.edges = literalEdges 0 e.postorder := by
  rw [Automaton.edges, automaton, block, edgesFrom_append, edgesFrom_body]
  exact List.append_nil _

theorem closed_automaton (e : Expr) : e.automaton.Closed := by
  have hentry := (e.entry_bounds 0).2
  refine ⟨by rw [size_automaton]; exact Nat.lt_succ_of_lt hentry, fun q s hs t ht => ?_⟩
  rw [size_automaton]
  rcases automaton_cases hs with ⟨-, rfl⟩ | ⟨-, hlinks⟩
  · simp at ht
  · exact Nat.lt_succ_of_le (hlinks.target_bounds ht).2

theorem acceptingAt_automaton_iff (e : Expr) (q : Nat) :
    e.automaton.AcceptingAt q ↔ q = e.exit 0 := by
  have hnone : ¬ (Automaton.ofStates []).AcceptingAt q := by
    simp [Automaton.AcceptingAt, Automaton.ofStates]
  exact (e.automaton_body.acceptingAt_iff q).trans (or_iff_left hnone)

theorem shaped_automaton (e : Expr) : e.automaton.Shaped e.postorder := by
  have hsize := e.size_automaton
  have hlast : ∀ q : Nat, q + 1 = e.automaton.size ↔ q = e.exit 0 := fun q => by
    rw [hsize, Nat.succ_inj]
  constructor
  case size_eq => rw [hsize, exit_add_one, countP_addsStates, Nat.zero_add]
  case length_edges => rw [edges_automaton, length_literalEdges]
  case epsilonCount_eq =>
    rw [← length_epsilon_body e 0]
    simp [Automaton.epsilonCount, automaton, block, State.new]
  case closed => exact e.closed_automaton
  case acceptingAt_iff => exact fun q => (e.acceptingAt_automaton_iff q).trans (hlast q).symm
  case targets_eq_nil_iff =>
    intro q s hs
    rw [hlast]
    rcases automaton_cases hs with ⟨hq, rfl⟩ | ⟨hq, hlinks⟩
    · simp [hq]
    · simp [hlinks.targets_ne_nil, hq.ne]
  case edges_eq => exact e.edges_automaton
  case inner =>
    intro q s hs hq
    rcases automaton_cases hs with ⟨hq', -⟩ | ⟨-, hlinks⟩
    · exact absurd ((hlast q).2 hq') hq
    · exact hlinks.reads_or_passes
  case incoming_start =>
    rw [incoming_automaton]
    exact (e.count_targets_body 0 _).1 (Or.inl rfl)
  case incoming_of_ne_start =>
    intro q hlt hne
    rw [incoming_automaton]
    rw [hsize] at hlt
    have hcount := (e.count_targets_body 0 q).2 (Nat.zero_le q) (Nat.le_of_lt_succ hlt) hne
    omega

end Expr

namespace Automaton

theorem shaped_of_ofPostorder :
    (∀ ts m, ts ≠ [] → ofPostorder ts = .ok m → m.Shaped ts) ∧
      ofPostorder [] = .ok ⟨#[.passing [1], .new true], 0⟩ := by
  refine ⟨fun ts m hne h => ?_, ofPostorder_nil⟩
  obtain ⟨e, -, rfl, rfl⟩ := exists_expr_of_ofPostorder hne h
  exact e.shaped_automaton

theorem shaped_of_ofPostorder_loop :
    ∃ m, ofPostorder [.literal 'a', .literal 'b', .literal 'c', .concat, .union, .star,
        .literal 'd', .concat] = .ok m ∧ m.size = 12 ∧ m.epsilonCount = 10 ∧
      m.edges = [(0, 'a', 1), (2, 'b', 3), (4, 'c', 5), (10, 'd', 11)] := by
  have hm := ofPostorder_postorder (e := .concat (.star (.union (.literal 'a')
    (.concat (.literal 'b') (.literal 'c')))) (.literal 'd')) rfl
  have h := shaped_of_ofPostorder.1 _ _ (Expr.postorder_ne_nil _) hm
  exact ⟨_, hm, h.size_eq, h.epsilonCount_eq, h.edges_eq⟩

end Automaton

end PatternAutomata
