import PatternAutomata.Construction
import PatternAutomata.Expr.Evaluation
import PatternAutomata.Proofs.Rules

/-!
# The automaton of an expression

An expression without operators that lack a rule has one automaton, and it can be written down. Its
states are numbered from a base on, those of the operands first and in their order, and its exit is
the last one. Only the exit is left open: in an operand it passes on to where the operator
continues, at the end it accepts.

A builder is a stack of expressions in disguise. Their states stand one after the other in its
automaton, and a token changes the stack as it does when trees are built from postorder. So whatever
is built from tokens is the automaton of the one expression whose postorder they are.
-/

namespace PatternAutomata

namespace Expr

def exit : Expr → Nat → Nat
  | .literal _, base => base + 1
  | .concat e f, base => f.exit (e.exit base + 1)
  | .union e f, base => f.exit (e.exit base + 1) + 2
  | .star e, base => e.exit base + 2
  | .optional e, base | .plus e, base => e.exit base

def entry : Expr → Nat → Nat
  | .literal _, base => base
  | .concat e _, base => e.entry base
  | .union e f, base => f.exit (e.exit base + 1) + 1
  | .star e, base => e.exit base + 1
  | .optional e, base | .plus e, base => e.entry base

def fragment (e : Expr) (base : Nat) : Fragment := ⟨e.entry base, e.exit base⟩

/-- The states from the base up to the exit, which is left out. -/
def body : Expr → Nat → List State
  | .literal c, base => [.reading c (base + 1)]
  | .concat e f, base =>
    let next := e.exit base + 1
    e.body base ++ .passing [f.entry next] :: f.body next
  | .union e f, base =>
    let next := e.exit base + 1
    let exit := f.exit next + 2
    e.body base ++ .passing [exit] :: f.body next ++
      [.passing [exit], .passing [e.entry base, f.entry next]]
  | .star e, base =>
    let choice := State.passing [e.exit base + 2, e.entry base]
    e.body base ++ [choice, choice]
  | .optional e, base | .plus e, base => e.body base

/-- All states, the exit as it is while no rule has continued from it. -/
def block (e : Expr) (base : Nat) : List State := e.body base ++ [.new true]

def automaton (e : Expr) : Automaton := ⟨(e.block 0).toArray, e.entry 0⟩

theorem base_add_length_body (e : Expr) (base : Nat) :
    base + (e.body base).length = e.exit base := by
  induction e generalizing base with
  | literal c => rfl
  | concat e f ihe ihf =>
    have he := ihe base
    have hf := ihf (e.exit base + 1)
    simp only [body, exit, List.length_append, List.length_cons]
    omega
  | union e f ihe ihf =>
    have he := ihe base
    have hf := ihf (e.exit base + 1)
    simp only [body, exit, List.length_append, List.length_cons, List.length_nil]
    omega
  | star e ih =>
    have he := ih base
    simp only [body, exit, List.length_append, List.length_cons, List.length_nil]
    omega
  | optional e ih | plus e ih => exact ih base

theorem base_add_length_block (e : Expr) (base : Nat) :
    base + (e.block base).length = e.exit base + 1 := by
  have h := e.base_add_length_body base
  simp only [block, List.length_append, List.length_singleton]
  omega

theorem entry_bounds (e : Expr) (base : Nat) :
    base ≤ e.entry base ∧ e.entry base < e.exit base := by
  induction e generalizing base with
  | literal c => simp [entry, exit]
  | concat e f ihe ihf =>
    have he := ihe base
    have hf := ihf (e.exit base + 1)
    simp only [entry, exit]
    omega
  | union e f ihe ihf =>
    have he := ihe base
    have hf := ihf (e.exit base + 1)
    simp only [entry, exit]
    omega
  | star e ih =>
    have he := ih base
    simp only [entry, exit]
    omega
  | optional e ih | plus e ih => exact ih base

end Expr

namespace Automaton

def ofStates (states : List State) : Automaton := ⟨states.toArray, 0⟩

theorem size_ofStates (states : List State) : (ofStates states).size = states.length := rfl

theorem grow_ofStates (states : List State) (s : State) :
    (ofStates states).grow s = ofStates (states ++ [s]) := by
  simp [ofStates, grow]

theorem modify_ofStates (before : List State) (s : State) (after : List State)
    (f : State → State) :
    (ofStates (before ++ s :: after)).modify before.length f =
      ofStates (before ++ f s :: after) := by
  simp only [ofStates, modify, List.modify_toArray, mk.injEq, and_true]
  induction before with
  | nil => rfl
  | cons t before ih => simpa using ih

end Automaton

namespace Expr

open Automaton

variable {before : List State} {base : Nat}

theorem size_ofStates_block (e : Expr) (h : before.length = base) :
    (ofStates (before ++ e.block base)).size = e.exit base + 1 := by
  rw [size_ofStates, List.length_append, h, base_add_length_block]

theorem handOver_block (e : Expr) (h : before.length = base) (after : List State)
    (targets : List StateId) :
    (ofStates (before ++ (e.block base ++ after))).modify (e.exit base) (State.handOver targets) =
      ofStates (before ++ (e.body base ++ .passing targets :: after)) := by
  have hbefore : (before ++ e.body base).length = e.exit base := by
    rw [List.length_append, h, base_add_length_body]
  have hstates : before ++ (e.block base ++ after) =
      before ++ e.body base ++ .new true :: after := by simp [block]
  rw [hstates, ← hbefore, modify_ofStates, State.handOver_new, List.append_assoc]

theorem symbol_block (c : Char) (h : before.length = base) :
    Fragment.symbol c (ofStates before) =
      .ok ((literal c).fragment base) (ofStates (before ++ (literal c).block base)) := by
  rw [Fragment.symbol_eq, size_ofStates, grow_ofStates, grow_ofStates, h, List.append_assoc]
  rfl

theorem closure_block (e : Expr) (h : before.length = base) :
    (e.fragment base).closure (ofStates (before ++ e.block base)) =
      .ok (e.star.fragment base) (ofStates (before ++ e.star.block base)) := by
  have hsize := size_ofStates_block e h
  have hexit : e.exit base < (ofStates (before ++ e.block base)).size + 2 := by omega
  rw [Fragment.closure_eq hexit, hsize, grow_ofStates, grow_ofStates, List.append_assoc,
    List.append_assoc, fragment, handOver_block e h]
  simp only [fragment, entry, exit, block, body, List.append_assoc, List.cons_append,
    List.nil_append]

theorem size_ofStates_blocks (e f : Expr) (h : before.length = base) :
    (ofStates (before ++ e.block base ++ f.block (e.exit base + 1))).size =
      f.exit (e.exit base + 1) + 1 :=
  size_ofStates_block f (size_ofStates_block e h)

theorem concat_block (e f : Expr) (h : before.length = base) :
    (e.fragment base).concat (f.fragment (e.exit base + 1))
        (ofStates (before ++ e.block base ++ f.block (e.exit base + 1))) =
      .ok ((e.concat f).fragment base) (ofStates (before ++ (e.concat f).block base)) := by
  have hsize := size_ofStates_blocks e f h
  have hf := f.entry_bounds (e.exit base + 1)
  have hexit : e.exit base <
      (ofStates (before ++ e.block base ++ f.block (e.exit base + 1))).size := by omega
  rw [Fragment.concat_eq hexit, fragment, List.append_assoc, handOver_block e h]
  simp only [fragment, entry, exit, block, body, List.append_assoc, List.cons_append]

theorem union_block (e f : Expr) (h : before.length = base) :
    (e.fragment base).union (f.fragment (e.exit base + 1))
        (ofStates (before ++ e.block base ++ f.block (e.exit base + 1))) =
      .ok ((e.union f).fragment base) (ofStates (before ++ (e.union f).block base)) := by
  have hsize := size_ofStates_blocks e f h
  have hf := f.entry_bounds (e.exit base + 1)
  have hexit : e.exit base <
      (ofStates (before ++ e.block base ++ f.block (e.exit base + 1))).size + 2 := by omega
  have hexit' : f.exit (e.exit base + 1) <
      (ofStates (before ++ e.block base ++ f.block (e.exit base + 1))).size + 2 := by omega
  -- once the left block is closed, its states count as standing before the right one
  generalize hclosed : before ++ (e.body base ++
    [State.passing [f.exit (e.exit base + 1) + 2]]) = closed
  have hlength : closed.length = e.exit base + 1 := by
    have hbody := e.base_add_length_body base
    rw [← hclosed]
    simp only [List.length_append, List.length_singleton]
    omega
  rw [Fragment.union_eq hexit hexit', hsize, grow_ofStates, grow_ofStates]
  simp only [fragment, List.append_assoc, List.cons_append, List.nil_append]
  rw [handOver_block e h, List.append_cons, ← List.append_assoc, hclosed, handOver_block f hlength,
    ← hclosed]
  simp only [entry, exit, block, body, List.append_assoc, List.cons_append, List.nil_append]

end Expr

namespace Builder

open Automaton PatternAutomata.Expr

def arena : List Expr → List State
  | [] => []
  | e :: stack => arena stack ++ e.block (arena stack).length

def fragments : List Expr → List Fragment
  | [] => []
  | e :: stack => e.fragment (arena stack).length :: fragments stack

def ofExprs (stack : List Expr) : Builder := ⟨ofStates (arena stack), fragments stack⟩

theorem ofExprs_nil : ofExprs [] = .empty := rfl

theorem length_arena_cons (e : Expr) (stack : List Expr) :
    (arena (e :: stack)).length = e.exit (arena stack).length + 1 := by
  rw [arena, List.length_append, base_add_length_block]

theorem extend_of_ok {m m' : Automaton} {rule : EditM Fragment} {f : Fragment}
    (h : rule m = .ok f m') (pending : List Fragment) :
    extend m pending rule = .ok ⟨m', f :: pending⟩ := by
  rw [extend, h]

/-- Why `t` does not fit when so many operands wait. -/
def rejection (waiting : Nat) : Token → CompileError
  | .star | .union | .concat => .malformed waiting
  | t => .unsupportedOperator t.toChar

theorem apply_ofExprs (stack : List Expr) (t : Token) :
    (ofExprs stack).apply t = match Operations.trees.push stack t with
      | some stack' => .ok (ofExprs stack')
      | none => .error (.compile (rejection stack.length t)) := by
  cases t with
  | literal c => exact extend_of_ok (symbol_block c rfl) _
  | star =>
    rcases stack with _ | ⟨inner, stack⟩
    · rfl
    · exact extend_of_ok (closure_block inner rfl) _
  | union =>
    rcases stack with _ | ⟨right, _ | ⟨left, stack⟩⟩
    · rfl
    · rfl
    · have hrule := union_block left right (rfl : (arena stack).length = _)
      rw [← length_arena_cons] at hrule
      exact extend_of_ok hrule _
  | concat =>
    rcases stack with _ | ⟨right, _ | ⟨left, stack⟩⟩
    · rfl
    · rfl
    · have hrule := concat_block left right (rfl : (arena stack).length = _)
      rw [← length_arena_cons] at hrule
      exact extend_of_ok hrule _
  | optional | plus | openParen | closeParen => rfl

theorem foldlM_apply_of_some {ts : List Token} {stack stack' : List Expr}
    (h : ts.foldlM Operations.trees.push stack = some stack') :
    ts.foldlM apply (ofExprs stack) = .ok (ofExprs stack') := by
  induction ts generalizing stack with
  | nil =>
    obtain rfl := Option.some.inj h
    rfl
  | cons t ts ih =>
    obtain ⟨middle, hpush, hrest⟩ := Option.bind_eq_some_iff.1 h
    rw [List.foldlM_cons, apply_ofExprs, hpush]
    exact ih hrest

theorem exists_of_foldlM_apply {ts : List Token} {stack : List Expr} {b : Builder}
    (h : ts.foldlM apply (ofExprs stack) = .ok b) :
    ∃ stack', ts.foldlM Operations.trees.push stack = some stack' ∧ b = ofExprs stack' := by
  induction ts generalizing stack with
  | nil =>
    obtain rfl := Except.ok.inj h
    exact ⟨stack, rfl, rfl⟩
  | cons t ts ih =>
    rw [List.foldlM_cons, apply_ofExprs] at h
    cases hpush : Operations.trees.push stack t with
    | none =>
      rw [hpush] at h
      cases h
    | some middle =>
      rw [hpush] at h
      obtain ⟨stack', hstack', hb⟩ := ih h
      refine ⟨stack', ?_, hb⟩
      rw [List.foldlM_cons, hpush]
      exact hstack'

theorem exists_of_finish {stack : List Expr} {m : Automaton}
    (h : (ofExprs stack).finish = .ok m) : ∃ e, stack = [e] ∧ m = e.automaton := by
  rcases stack with _ | ⟨e, _ | ⟨f, stack⟩⟩
  · cases h
  · exact ⟨e, rfl, (Except.ok.inj h).symm⟩
  · cases h

end Builder

namespace Automaton

def emptyWord : Automaton := ⟨#[.passing [1], .new true], 0⟩

theorem ofPostorder_nil : ofPostorder [] = .ok emptyWord := by
  have hrule := Fragment.epsilon_eq empty
  rw [ofPostorder, Builder.extend_of_ok hrule]
  rfl

theorem ofPostorder_postorder {e : Expr} (h : e.constructible = true) :
    ofPostorder e.postorder = .ok e.automaton := by
  have hrun := Builder.foldlM_apply_of_some (Expr.foldlM_push_postorder h [])
  rw [ofPostorder_of_ne_nil e.postorder_ne_nil, ← Builder.ofExprs_nil, hrun]
  rfl

theorem exists_expr_of_ofPostorder {ts : List Token} (hne : ts ≠ []) {m : Automaton}
    (h : ofPostorder ts = .ok m) :
    ∃ e : Expr, e.constructible = true ∧ e.postorder = ts ∧ m = e.automaton := by
  rw [ofPostorder_of_ne_nil hne, ← Builder.ofExprs_nil] at h
  cases hrun : ts.foldlM Builder.apply (.ofExprs []) with
  | error cause =>
    rw [hrun] at h
    cases h
  | ok b =>
    rw [hrun] at h
    obtain ⟨stack, hstack, rfl⟩ := Builder.exists_of_foldlM_apply hrun
    obtain ⟨e, rfl, hm⟩ := Builder.exists_of_finish h
    obtain ⟨hspelled, hall⟩ := Expr.spelled_of_foldlM_push hstack (by simp)
    exact ⟨e, hall e (by simp), hspelled, hm⟩

end Automaton

end PatternAutomata
