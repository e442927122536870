import PatternAutomata.Automaton.Fragment
import PatternAutomata.Proofs.Wiring

/-!
# What the rules do

Each rule is described by the automaton it leaves: `grow` puts a new state behind the others, and
`modify` changes one state. A rule that continues from an exit hands it over to new targets, which
clears its accepting flag. The exits may be any states that exist once the new ones are there, the
new ones among them.
-/

namespace PatternAutomata

def State.handOver (targets : List StateId) (s : State) : State :=
  { s with accepting := false, epsilon := s.epsilon ++ targets }

theorem State.handOver_new (targets : List StateId) (accepting : Bool) :
    (State.new accepting).handOver targets = .passing targets := rfl

namespace Automaton

def grow (m : Automaton) (s : State) : Automaton := ⟨m.states.push s, m.start⟩

def modify (m : Automaton) (id : StateId) (f : State → State) : Automaton :=
  ⟨m.states.modify id f, m.start⟩

variable {m : Automaton} {s : State} {id i : StateId} {f : State → State}

@[simp] theorem size_grow : (m.grow s).size = m.size + 1 := by
  simp [size, grow]

@[simp] theorem size_modify : (m.modify id f).size = m.size := by
  simp [size, modify]

theorem lt_size_modify (h : i < m.size) : i < (m.modify id f).size := by
  rw [size_modify]
  exact h

theorem size_grow_grow {t : State} : ((m.grow s).grow t).size = m.size + 2 := by
  rw [size_grow, size_grow]

theorem lt_size_grow_grow {t : State} (h : i < m.size + 2) : i < ((m.grow s).grow t).size := by
  rw [size_grow_grow]
  exact h

theorem size_lt_grow_grow {t : State} : m.size < ((m.grow s).grow t).size :=
  lt_size_grow_grow (Nat.lt_add_of_pos_right Nat.two_pos)

theorem getElem?_grow : (m.grow s).states[i]? = if i = m.size then some s else m.states[i]? := by
  rw [grow, Array.getElem?_push]
  rfl

theorem getElem?_grow_of_lt (h : i < m.size) : (m.grow s).states[i]? = m.states[i]? := by
  rw [getElem?_grow, if_neg h.ne]

theorem getElem?_modify :
    (m.modify id f).states[i]? = if id = i then m.states[i]?.map f else m.states[i]? := by
  simp [modify, Array.getElem?_modify]

theorem getElem?_modify_self (h : m.states[id]? = some s) :
    (m.modify id f).states[id]? = some (f s) := by
  simp [getElem?_modify, h]

theorem getElem?_modify_of_ne (h : i ≠ id) : (m.modify id f).states[i]? = m.states[i]? := by
  rw [getElem?_modify, if_neg h.symm]

theorem modify_grow_last : (m.grow s).modify m.size f = m.grow (f s) := by
  simp only [grow, modify, mk.injEq, and_true]
  apply Array.ext_getElem?
  intro i
  simp only [Array.getElem?_modify, Array.getElem?_push, size]
  split <;> split <;> simp_all

theorem modify_grow_of_lt (h : id < m.size) : (m.grow s).modify id f = (m.modify id f).grow s := by
  simp only [grow, modify, mk.injEq, and_true]
  apply Array.ext_getElem?
  intro i
  have hsize : m.states.size ≠ id := (show m.states.size = m.size from rfl) ▸ h.ne'
  simp only [Array.getElem?_modify, Array.getElem?_push, Array.size_modify]
  split <;> split <;> simp_all

theorem modify_modify {g : State → State} :
    (m.modify id f).modify id g = m.modify id (g ∘ f) := by
  simp only [modify, mk.injEq, and_true]
  apply Array.ext_getElem?
  intro i
  simp only [Array.getElem?_modify]
  split <;> simp_all

end Automaton

namespace EditM

variable {α β : Type} {m m' : Automaton}

theorem bind_of_ok {x : EditM α} {a : α} (h : x m = .ok a m') (g : α → EditM β) :
    (x >>= g) m = g a m' := by
  simp only [bind, EStateM.bind, h]

theorem bind_of_error {x : EditM α} {access : MissingState} (h : x m = .error access m')
    (g : α → EditM β) : (x >>= g) m = .error access m' := by
  simp only [bind, EStateM.bind, h]

theorem addState_eq (m : Automaton) (accepting : Bool) :
    addState accepting m = .ok m.size (m.grow (.new accepting)) := rfl

theorem addEpsilon_eq {source : StateId} (h : source < m.size) (target : StateId) :
    addEpsilon source target m =
      .ok () (m.modify source fun s => { s with epsilon := s.epsilon ++ [target] }) :=
  modifyState_of_lt h _

theorem addEdge_eq {source : StateId} (h : source < m.size) (c : Char) (target : StateId) :
    addEdge source c target m =
      .ok () (m.modify source fun s => { s with edges := s.edges.insert c target }) :=
  modifyState_of_lt h _

theorem setAccepting_eq {id : StateId} (h : id < m.size) (accepting : Bool) :
    setAccepting id accepting m =
      .ok () (m.modify id fun s => { s with accepting := accepting }) :=
  modifyState_of_lt h _

def handOver (id : StateId) : List StateId → EditM Unit
  | [] => setAccepting id false
  | target :: targets => do
    addEpsilon id target
    handOver id targets

theorem handOver_eq {id : StateId} (h : id < m.size) (targets : List StateId) :
    handOver id targets m = .ok () (m.modify id (State.handOver targets)) := by
  induction targets generalizing m with
  | nil =>
    have hover : State.handOver [] = fun s => { s with accepting := false } := by
      funext s
      simp [State.handOver]
    rw [handOver, setAccepting_eq h, hover]
  | cons target targets ih =>
    have hover : State.handOver targets ∘ (fun s => { s with epsilon := s.epsilon ++ [target] }) =
        State.handOver (target :: targets) := by
      funext s
      simp [State.handOver]
    rw [handOver, bind_of_ok (addEpsilon_eq h target), ih (Automaton.lt_size_modify h),
      Automaton.modify_modify, hover]

/-- The first step looks the state up, so nothing is changed when it is missing. -/
theorem handOver_of_le {id : StateId} (h : m.size ≤ id) (targets : List StateId) :
    handOver id targets m = .error (m.missing id) m := by
  cases targets with
  | nil => exact modifyState_of_le h _
  | cons target targets => exact bind_of_error (modifyState_of_le h _) _

end EditM

namespace Fragment

open EditM Automaton

theorem epsilon_eq (m : Automaton) :
    epsilon m =
      .ok ⟨m.size, m.size + 1⟩ ((m.grow (.passing [m.size + 1])).grow (.new true)) := by
  rw [epsilon, bind_of_ok (addState_eq m false), bind_of_ok (addState_eq _ true),
    bind_of_ok (addEpsilon_eq size_lt_grow_grow _), size_grow, modify_grow_of_lt (by simp),
    modify_grow_last]
  rfl

theorem symbol_eq (m : Automaton) (c : Char) :
    symbol c m =
      .ok ⟨m.size, m.size + 1⟩ ((m.grow (.reading c (m.size + 1))).grow (.new true)) := by
  rw [symbol, bind_of_ok (addState_eq m false), bind_of_ok (addState_eq _ true),
    bind_of_ok (addEdge_eq size_lt_grow_grow c _), size_grow, modify_grow_of_lt (by simp),
    modify_grow_last]
  rfl

theorem concat_eq_handOver (first second : Fragment) :
    first.concat second = (do
      handOver first.exit [second.entry]
      return ⟨first.entry, second.exit⟩) := by
  simp only [concat, handOver, bind_assoc]

theorem union_eq_handOver (m : Automaton) (first second : Fragment) :
    first.union second m = (do
      handOver first.exit [m.size + 1]
      handOver second.exit [m.size + 1]
      return ⟨m.size, m.size + 1⟩ : EditM Fragment)
        ((m.grow (.passing [first.entry, second.entry])).grow (.new true)) := by
  rw [union, bind_of_ok (addState_eq m false), bind_of_ok (addEpsilon_eq (by simp) _),
    bind_of_ok (addEpsilon_eq (by simp) _), modify_modify, modify_grow_last,
    bind_of_ok (addState_eq _ true), size_grow]
  simp only [handOver, bind_assoc]
  rfl

theorem closure_eq_handOver (m : Automaton) (inner : Fragment) :
    inner.closure m = (do
      handOver inner.exit [m.size + 1, inner.entry]
      return ⟨m.size, m.size + 1⟩ : EditM Fragment)
        ((m.grow (.passing [m.size + 1, inner.entry])).grow (.new true)) := by
  rw [closure, bind_of_ok (addState_eq m false), bind_of_ok (addState_eq _ true),
    bind_of_ok (addEpsilon_eq size_lt_grow_grow _), size_grow, modify_grow_of_lt (by simp),
    modify_grow_last, bind_of_ok (addEpsilon_eq size_lt_grow_grow _), modify_grow_of_lt (by simp),
    modify_grow_last]
  simp only [handOver, bind_assoc]
  rfl

theorem concat_eq {m : Automaton} {first : Fragment} (h : first.exit < m.size)
    (second : Fragment) :
    first.concat second m =
      .ok ⟨first.entry, second.exit⟩ (m.modify first.exit (State.handOver [second.entry])) := by
  rw [concat_eq_handOver, bind_of_ok (handOver_eq h _)]
  rfl

theorem union_eq {m : Automaton} {first second : Fragment} (hf : first.exit < m.size + 2)
    (hs : second.exit < m.size + 2) :
    first.union second m =
      .ok ⟨m.size, m.size + 1⟩
        ((((m.grow (.passing [first.entry, second.entry])).grow (.new true)).modify first.exit
          (State.handOver [m.size + 1])).modify second.exit (State.handOver [m.size + 1])) := by
  rw [union_eq_handOver, bind_of_ok (handOver_eq (lt_size_grow_grow hf) _),
    bind_of_ok (handOver_eq (lt_size_modify (lt_size_grow_grow hs)) _)]
  rfl

theorem closure_eq {m : Automaton} {inner : Fragment} (h : inner.exit < m.size + 2) :
    inner.closure m =
      .ok ⟨m.size, m.size + 1⟩
        (((m.grow (.passing [m.size + 1, inner.entry])).grow (.new true)).modify inner.exit
          (State.handOver [m.size + 1, inner.entry])) := by
  rw [closure_eq_handOver, bind_of_ok (handOver_eq (lt_size_grow_grow h) _)]
  rfl

end Fragment

end PatternAutomata
