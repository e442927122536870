import PatternAutomata.Automaton.Fragment
import PatternAutomata.Postorder

/-!
# Building an automaton from postorder

A builder reads tokens in postorder. It holds the automaton built so far and the fragments that no
operator has taken yet, the latest first. A literal adds a fragment, an operator replaces its
operands by their combination. The empty sequence stands for the empty word; any other has to leave
exactly one fragment, whose entry is the start.
-/

namespace PatternAutomata

structure Builder where
  automaton : Automaton
  pending : List Fragment
  deriving DecidableEq

namespace Builder

def empty : Builder := ⟨.empty, []⟩

def extend (m : Automaton) (pending : List Fragment) (rule : EditM Fragment) :
    Except Error Builder :=
  match rule m with
  | .ok f m => .ok ⟨m, f :: pending⟩
  | .error access _ => .error (.missingState access)

def malformed (pending : List Fragment) : Error := .compile (.malformed pending.length)

def apply : Builder → Token → Except Error Builder
  | ⟨m, pending⟩, .literal c => extend m pending (Fragment.symbol c)
  | ⟨m, pending⟩, .star =>
    match pending with
    | inner :: rest => extend m rest inner.closure
    | _ => .error (malformed pending)
  | ⟨m, pending⟩, .union =>
    match pending with
    | second :: first :: rest => extend m rest (first.union second)
    | _ => .error (malformed pending)
  | ⟨m, pending⟩, .concat =>
    match pending with
    | second :: first :: rest => extend m rest (first.concat second)
    | _ => .error (malformed pending)
  | _, token => .error (.compile (.unsupportedOperator token.toChar))

def finish : Builder → Except Error Automaton
  | ⟨m, [f]⟩ => .ok { m with start := f.entry }
  | ⟨_, pending⟩ => .error (malformed pending)

end Builder

namespace Automaton

def ofPostorder : List Token → Except Error Automaton
  | [] => do (← Builder.extend .empty [] Fragment.epsilon).finish
  | tokens => do (← tokens.foldlM Builder.apply .empty).finish

theorem ofPostorder_of_ne_nil {ts : List Token} (hne : ts ≠ []) :
    ofPostorder ts = ts.foldlM Builder.apply .empty >>= Builder.finish := by
  cases ts with
  | nil => exact absurd rfl hne
  | cons t ts => rfl

theorem ofPostorder_of_foldlM_eq_error {ts : List Token} {e : Error}
    (h : ts.foldlM Builder.apply .empty = .error e) : ofPostorder ts = .error e := by
  have hne : ts ≠ [] := by
    rintro rfl
    cases h
  rw [ofPostorder_of_ne_nil hne, h]
  rfl

theorem ofPostorder_of_take_eq_error {ts : List Token} {n : Nat} {e : Error}
    (h : (ts.take n).foldlM Builder.apply .empty = .error e) : ofPostorder ts = .error e := by
  apply ofPostorder_of_foldlM_eq_error
  calc ts.foldlM Builder.apply .empty
      = (ts.take n ++ ts.drop n).foldlM Builder.apply .empty := by rw [List.take_append_drop]
    _ = .error e := by
      rw [List.foldlM_append, h]
      rfl

def ofPattern (pattern : String) : Except Error Automaton := do
  ofPostorder (← (parse pattern).mapError .compile)

end Automaton

end PatternAutomata
