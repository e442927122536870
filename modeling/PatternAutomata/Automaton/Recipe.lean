import Mathlib.Computability.Language
import PatternAutomata.Automaton.Fragment

/-!
# Recipes

A recipe is an expression over the construction rules; unlike a pattern it can ask for the empty
word anywhere. It is carried out by calls on one automaton, one for each rule in it, and a call
names its operands by the numbers of earlier calls. Calls for several recipes may come in any order
and may stay unfinished. A sequence of calls is orderly when every operand is the result of an
earlier call and no result is an operand twice.
-/

namespace PatternAutomata

inductive Recipe where
  | epsilon
  | symbol (c : Char)
  | concat (first second : Recipe)
  | union (first second : Recipe)
  | closure (inner : Recipe)
  deriving DecidableEq, Repr

def Recipe.language : Recipe → Language Char
  | .epsilon => 1
  | .symbol c => {[c]}
  | .concat first second => first.language * second.language
  | .union first second => first.language + second.language
  | .closure inner => KStar.kstar inner.language

inductive Call where
  | epsilon
  | symbol (c : Char)
  | concat (first second : Nat)
  | union (first second : Nat)
  | closure (inner : Nat)
  deriving DecidableEq, Repr

namespace Call

def operands : Call → List Nat
  | .epsilon | .symbol _ => []
  | .concat i j | .union i j => [i, j]
  | .closure i => [i]

/-- The rule to apply when `made` holds the results of the earlier calls. An orderly call finds its
operands there. -/
def rule (made : List Fragment) : Call → EditM Fragment
  | .epsilon => Fragment.epsilon
  | .symbol c => Fragment.symbol c
  | .concat i j => (made.getD i ⟨0, 0⟩).concat (made.getD j ⟨0, 0⟩)
  | .union i j => (made.getD i ⟨0, 0⟩).union (made.getD j ⟨0, 0⟩)
  | .closure i => (made.getD i ⟨0, 0⟩).closure

def recipe (made : List Recipe) : Call → Recipe
  | .epsilon => .epsilon
  | .symbol c => .symbol c
  | .concat i j => .concat (made.getD i .epsilon) (made.getD j .epsilon)
  | .union i j => .union (made.getD i .epsilon) (made.getD j .epsilon)
  | .closure i => .closure (made.getD i .epsilon)

def run (calls : List Call) : EditM (List Fragment) :=
  calls.foldlM (fun made call => do return made ++ [← call.rule made]) []

def recipes (calls : List Call) : List Recipe :=
  calls.foldl (fun made call => made ++ [call.recipe made]) []

def used (calls : List Call) : List Nat := calls.flatMap operands

structure Orderly (calls : List Call) : Prop where
  earlier : ∀ x ∈ calls.zipIdx, ∀ i ∈ x.1.operands, i < x.2
  once : (used calls).Nodup

@[simp] theorem recipes_append_singleton (calls : List Call) (call : Call) :
    recipes (calls ++ [call]) = recipes calls ++ [call.recipe (recipes calls)] := by
  simp [recipes]

@[simp] theorem used_append_singleton (calls : List Call) (call : Call) :
    used (calls ++ [call]) = used calls ++ call.operands := by
  simp [used]

@[simp] theorem length_recipes (calls : List Call) : (recipes calls).length = calls.length := by
  induction calls using List.reverseRecOn with
  | nil => rfl
  | append_singleton calls call ih => simp [ih]

theorem run_append_singleton {calls : List Call} {call : Call} {m m' m'' : Automaton}
    {made : List Fragment} {f : Fragment} (h : run calls m = .ok made m')
    (hcall : call.rule made m' = .ok f m'') :
    run (calls ++ [call]) m = .ok (made ++ [f]) m'' := by
  have hrun : run (calls ++ [call]) =
      run calls >>= fun made => do return made ++ [← call.rule made] := by
    simp [run]
  rw [hrun]
  simp only [bind, EStateM.bind, h, hcall]
  rfl

namespace Orderly

variable {calls : List Call} {call : Call}

theorem init (h : Orderly (calls ++ [call])) : Orderly calls := by
  obtain ⟨hearlier, honce⟩ := h
  rw [used_append_singleton] at honce
  refine ⟨fun x hx => hearlier x ?_, (List.nodup_append.1 honce).1⟩
  rw [List.zipIdx_append]
  exact List.mem_append_left _ hx

theorem operand_lt (h : Orderly (calls ++ [call])) {i : Nat} (hi : i ∈ call.operands) :
    i < calls.length := by
  refine h.earlier (call, calls.length) ?_ i hi
  simp [List.zipIdx_append]

theorem operand_unused (h : Orderly (calls ++ [call])) {i : Nat} (hi : i ∈ call.operands) :
    i ∉ used calls := by
  have honce := h.once
  rw [used_append_singleton] at honce
  intro hused
  exact (List.nodup_append.1 honce).2.2 i hused i hi rfl

theorem nodup_operands (h : Orderly (calls ++ [call])) : call.operands.Nodup := by
  have honce := h.once
  rw [used_append_singleton] at honce
  exact (List.nodup_append.1 honce).2.1

end Orderly

end Call

end PatternAutomata
