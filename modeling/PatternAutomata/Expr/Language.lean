import Mathlib.Computability.Language
import PatternAutomata.Expr.Evaluation

/-!
# Languages

The language of an expression is the set of words it stands for. A token sequence in postorder has a
language too, found without a tree: it is evaluated on a stack of languages and one language has to
be left. The empty sequence stands for the empty word. A stack of languages is what a stack of trees
means, so the language that is left is that of the one expression whose postorder was read.
-/

namespace PatternAutomata

def Expr.language : Expr → Language Char
  | .literal c => {[c]}
  | .concat e f => e.language * f.language
  | .union e f => e.language + f.language
  | .star e => KStar.kstar e.language
  | .optional e => 1 + e.language
  | .plus e => e.language * KStar.kstar e.language

namespace Operations

def languages : Operations (Language Char) := ⟨fun c => {[c]}, (· * ·), (· + ·), KStar.kstar⟩

theorem push_map_language (stack : List Expr) (t : Token) :
    languages.push (stack.map Expr.language) t =
      (trees.push stack t).map (List.map Expr.language) := by
  cases t with
  | literal c => rfl
  | star => cases stack <;> rfl
  | union | concat => rcases stack with _ | ⟨right, _ | ⟨left, rest⟩⟩ <;> rfl
  | optional | plus | openParen | closeParen => rfl

theorem foldlM_push_map_language (stack : List Expr) (ts : List Token) :
    ts.foldlM languages.push (stack.map Expr.language) =
      (ts.foldlM trees.push stack).map (List.map Expr.language) := by
  induction ts generalizing stack with
  | nil => rfl
  | cons t ts ih =>
    rw [List.foldlM_cons, List.foldlM_cons, push_map_language]
    cases trees.push stack t with
    | none => rfl
    | some stack' => exact ih stack'

end Operations

namespace Denotation

open Operations

def ofPostorder? : List Token → Option (Language Char)
  | [] => some 1
  | tokens =>
    match tokens.foldlM languages.push [] with
    | some [l] => some l
    | _ => none

theorem ofPostorder?_eq_some_iff {ts : List Token} (hne : ts ≠ []) {L : Language Char} :
    ofPostorder? ts = some L ↔ ts.foldlM languages.push [] = some [L] := by
  rw [ofPostorder?.eq_2 ts hne]
  rcases ts.foldlM languages.push [] with _ | _ | ⟨l, _ | ⟨l', rest⟩⟩ <;> simp

theorem ofPostorder?_postorder {e : Expr} (h : e.constructible) :
    ofPostorder? e.postorder = some e.language := by
  rw [ofPostorder?_eq_some_iff e.postorder_ne_nil]
  have hmap := foldlM_push_map_language [] e.postorder
  rw [Expr.foldlM_push_postorder h] at hmap
  exact hmap

theorem exists_expr_of_ofPostorder? {ts : List Token} (hne : ts ≠ []) {L : Language Char}
    (h : ofPostorder? ts = some L) :
    ∃ e : Expr, e.constructible = true ∧ e.postorder = ts ∧ e.language = L := by
  have hmap := foldlM_push_map_language [] ts
  rw [List.map_nil, (ofPostorder?_eq_some_iff hne).1 h] at hmap
  obtain ⟨stack, hstack, hL⟩ := Option.map_eq_some_iff.1 hmap.symm
  obtain ⟨e, rfl, he⟩ := List.map_eq_singleton_iff.1 hL
  obtain ⟨hspelled, hall⟩ := Expr.spelled_of_foldlM_push hstack (by simp)
  exact ⟨e, hall e (by simp), hspelled, he⟩

end Denotation

end PatternAutomata
