import Mathlib.Data.List.Count
import PatternAutomata.Proofs.Complaints

/-!
# Which parenthesis is at fault

Two things can be wrong with parentheses. Some prefix closes more of them than it opens; or no
prefix does, but the whole opens more than it closes. The depth counted while reading tells both: it
is lost at the first parenthesis that closes nothing, and otherwise it is the surplus of those
opened. A yard holds as many barriers as the depth says, whatever operators wait between them, so
reordering reports the first fault at once, the second at the end, and no other. Marks do not touch
parentheses, and building only begins after reordering has come through.
-/

namespace PatternAutomata

section Nesting

variable {α β : Type} [DecidableEq α] [DecidableEq β]

/-- Some prefix closes more than it opens. -/
def Overclosed (opening closing : α) (xs : List α) : Prop :=
  ∃ n, (xs.take n).count opening < (xs.take n).count closing

/-- No prefix closes too much, and at the end something is still open. -/
def LeftOpen (opening closing : α) (xs : List α) : Prop :=
  ¬ Overclosed opening closing xs ∧ xs.count closing < xs.count opening

def Matched (opening closing : α) (xs : List α) : Prop :=
  ¬ Overclosed opening closing xs ∧ ¬ LeftOpen opening closing xs

variable {f : β → α} (hf : f.Injective) (opening closing : β) (xs : List β)

include hf

theorem overclosed_map :
    Overclosed (f opening) (f closing) (xs.map f) ↔ Overclosed opening closing xs := by
  simp only [Overclosed, ← List.map_take, List.count_map_of_injective _ f hf]

theorem leftOpen_map :
    LeftOpen (f opening) (f closing) (xs.map f) ↔ LeftOpen opening closing xs := by
  simp only [LeftOpen, overclosed_map hf, List.count_map_of_injective _ f hf]

end Nesting

theorem depthAfter_eq_none_iff {depth : Nat} {t : Token} :
    depthAfter depth t = none ↔ depth + [t].count .openParen < [t].count .closeParen := by
  cases t with
  | closeParen => cases depth <;> simp [depthAfter]
  | _ => simp [depthAfter]

theorem count_of_depthAfter {depth depth' : Nat} {t : Token}
    (h : depthAfter depth t = some depth') :
    depth' + [t].count .closeParen = depth + [t].count .openParen := by
  cases t with
  | closeParen =>
    cases depth with
    | zero => cases h
    | succ depth =>
      obtain rfl := Option.some.inj h
      simp
  | _ =>
    obtain rfl := Option.some.inj h
    simp

theorem count_cons_eq (t u : Token) (ts : List Token) :
    (t :: ts).count u = [t].count u + ts.count u :=
  (List.count_append : ([t] ++ ts).count u = _)

theorem foldlM_depthAfter_eq_none_iff {depth : Nat} {ts : List Token} :
    ts.foldlM depthAfter depth = none ↔
      ∃ n, depth + (ts.take n).count .openParen < (ts.take n).count .closeParen := by
  -- the depth is general: a token read first shifts the balance of every later prefix
  induction ts generalizing depth with
  | nil => simp
  | cons t ts ih =>
    rw [List.foldlM_cons]
    cases hd : depthAfter depth t with
    | none =>
      have hlt := depthAfter_eq_none_iff.1 hd
      exact ⟨fun _ => ⟨1, by simpa using hlt⟩, fun _ => rfl⟩
    | some d =>
      have hcount := count_of_depthAfter hd
      refine ih.trans ⟨?_, ?_⟩
      · rintro ⟨n, hn⟩
        have hopen := count_cons_eq t .openParen (ts.take n)
        have hclose := count_cons_eq t .closeParen (ts.take n)
        exact ⟨n + 1, by rw [List.take_succ_cons]; omega⟩
      · rintro ⟨n, hn⟩
        cases n with
        | zero => simp at hn
        | succ n =>
          have hopen := count_cons_eq t .openParen (ts.take n)
          have hclose := count_cons_eq t .closeParen (ts.take n)
          rw [List.take_succ_cons] at hn
          exact ⟨n, by omega⟩

theorem count_of_foldlM_depthAfter {depth depth' : Nat} {ts : List Token}
    (h : ts.foldlM depthAfter depth = some depth') :
    depth' + ts.count .closeParen = depth + ts.count .openParen := by
  induction ts generalizing depth with
  | nil =>
    obtain rfl := Option.some.inj h
    simp
  | cons t ts ih =>
    obtain ⟨d, ht, hrest⟩ := Option.bind_eq_some_iff.1 h
    have hcount := count_of_depthAfter ht
    have hrest := ih hrest
    have hopen := count_cons_eq t .openParen ts
    have hclose := count_cons_eq t .closeParen ts
    omega

theorem overclosed_iff {ts : List Token} :
    Overclosed .openParen .closeParen ts ↔ ts.foldlM depthAfter 0 = none := by
  rw [foldlM_depthAfter_eq_none_iff]
  simp only [Overclosed, Nat.zero_add]

theorem leftOpen_iff {ts : List Token} :
    LeftOpen .openParen .closeParen ts ↔ ∃ depth, ts.foldlM depthAfter 0 = some (depth + 1) := by
  rw [LeftOpen, overclosed_iff]
  cases hd : ts.foldlM depthAfter 0 with
  | none => simp
  | some depth =>
    have hcount := count_of_foldlM_depthAfter hd
    simp only [reduceCtorEq, not_false_eq_true, true_and, Option.some.injEq]
    constructor
    · intro hlt
      exact ⟨depth - 1, by omega⟩
    · rintro ⟨d, rfl⟩
      omega

theorem matched_iff {ts : List Token} :
    Matched .openParen .closeParen ts ↔ ts.foldlM depthAfter 0 = some 0 := by
  rw [Matched, overclosed_iff, leftOpen_iff]
  rcases ts.foldlM depthAfter 0 with _ | _ | depth <;> simp

/-- `result` is an error of kind `fault` exactly when the parentheses of `xs` are at fault, and it
names the side that lacks its partner. -/
structure Blames {α ε β : Type} [DecidableEq α] (opening closing : α) (xs : List α)
    (fault : Unbalanced → ε) (result : Except ε β) : Prop where
  unopened : result = .error (fault .unopened) ↔ Overclosed opening closing xs
  unclosed : result = .error (fault .unclosed) ↔ LeftOpen opening closing xs

theorem blames_toPostorder (ts : List Token) :
    Blames .openParen .closeParen ts .unbalancedParentheses (toPostorder ts) where
  unopened := (endsAtDepth_toPostorder ts).iffs.1.trans overclosed_iff.symm
  unclosed := (endsAtDepth_toPostorder ts).iffs.2.1.trans leftOpen_iff.symm

theorem exists_toPostorder_iff (ts : List Token) :
    (∃ out, toPostorder ts = .ok out) ↔ Matched .openParen .closeParen ts :=
  (endsAtDepth_toPostorder ts).iffs.2.2.trans matched_iff.symm

theorem Token.ofChar_injective : Token.ofChar.Injective :=
  Function.LeftInverse.injective Token.toChar_ofChar

variable (text : String)

theorem overclosed_marked :
    Overclosed .openParen .closeParen (markConcat (tokenize text)) ↔
      Overclosed '(' ')' text.toList := by
  rw [overclosed_iff, foldlM_depthAfter_markConcat, ← overclosed_iff]
  exact overclosed_map Token.ofChar_injective '(' ')' text.toList

theorem leftOpen_marked :
    LeftOpen .openParen .closeParen (markConcat (tokenize text)) ↔
      LeftOpen '(' ')' text.toList := by
  rw [leftOpen_iff, foldlM_depthAfter_markConcat, ← leftOpen_iff]
  exact leftOpen_map Token.ofChar_injective '(' ')' text.toList

theorem blames_parse : Blames '(' ')' text.toList .unbalancedParentheses (parse text) where
  unopened := (blames_toPostorder _).unopened.trans (overclosed_marked text)
  unclosed := (blames_toPostorder _).unclosed.trans (leftOpen_marked text)

theorem exists_parse_iff : (∃ out, parse text = .ok out) ↔ Matched '(' ')' text.toList := by
  rw [parse, exists_toPostorder_iff, Matched, overclosed_marked, leftOpen_marked, Matched]

theorem ofPattern_unbalanced_iff (side : Unbalanced) :
    Automaton.ofPattern text = .error (.compile (.unbalancedParentheses side)) ↔
      parse text = .error (.unbalancedParentheses side) := by
  cases hparse : parse text with
  | error cause =>
    rw [Automaton.ofPattern, hparse]
    simp [bind, Except.bind, Except.mapError]
  | ok out =>
    rw [Automaton.ofPattern_of_parse hparse]
    simp only [reduceCtorEq, iff_false]
    intro h
    obtain ⟨cause, hcause, hbuilding⟩ := Automaton.exists_ofBuilding_of_ofPostorder h
    obtain rfl := Error.compile.inj hcause
    exact hbuilding.not_ofReordering ⟨side, rfl⟩

theorem blames_ofPattern :
    Blames '(' ')' text.toList (fun side => .compile (.unbalancedParentheses side))
      (Automaton.ofPattern text) where
  unopened := (ofPattern_unbalanced_iff text .unopened).trans (blames_parse text).unopened
  unclosed := (ofPattern_unbalanced_iff text .unclosed).trans (blames_parse text).unclosed

theorem blames_compile :
    Blames '(' ')' text.toList (fun side => .compile (.unbalancedParentheses side))
      (Pattern.compile text) where
  unopened := Pattern.compile_eq_error_iff.trans (blames_ofPattern text).unopened
  unclosed := Pattern.compile_eq_error_iff.trans (blames_ofPattern text).unclosed

theorem ok_or_ofBuilding_iff :
    ((∃ p, Pattern.compile text = .ok p) ∨
      ∃ cause : CompileError, cause.OfBuilding ∧ Pattern.compile text = .error (.compile cause)) ↔
      Matched '(' ')' text.toList := by
  rw [← exists_parse_iff]
  constructor
  · rintro (⟨p, hp⟩ | ⟨cause, hbuilding, hcause⟩)
    · obtain ⟨out, hout, -⟩ := Automaton.exists_parse_of_ofPattern (Pattern.ofPattern_of_compile hp)
      exact ⟨out, hout⟩
    · obtain ⟨out, hout, -⟩ := Pattern.exists_parse_of_ofBuilding hbuilding hcause
      exact ⟨out, hout⟩
  · rintro ⟨out, hout⟩
    cases hcompile : Pattern.compile text with
    | ok p => exact Or.inl ⟨p, rfl⟩
    | error e =>
      obtain ⟨cause, rfl, hstep⟩ := Pattern.exists_step_of_compile hcompile
      rcases hstep with ⟨hparse, -⟩ | ⟨-, -, -, hbuilding⟩
      · rw [hout] at hparse
        cases hparse
      · exact Or.inr ⟨cause, hbuilding, rfl⟩

/-- Reordering fails on unbalanced parentheses and on nothing else, and says which side lacks its
partner. A pattern is reported in the same way, whatever else is wrong with it. -/
theorem parentheses_are_blamed :
    (∀ ts : List Token,
      Blames .openParen .closeParen ts .unbalancedParentheses (toPostorder ts) ∧
        ((∃ out, toPostorder ts = .ok out) ↔ Matched .openParen .closeParen ts)) ∧
    ∀ text : String,
      (Blames '(' ')' text.toList .unbalancedParentheses (parse text) ∧
        ((∃ out, parse text = .ok out) ↔ Matched '(' ')' text.toList)) ∧
      Blames '(' ')' text.toList (fun side => .compile (.unbalancedParentheses side))
        (Automaton.ofPattern text) ∧
      Blames '(' ')' text.toList (fun side => .compile (.unbalancedParentheses side))
        (Pattern.compile text) ∧
      (((∃ p, Pattern.compile text = .ok p) ∨
        ∃ cause : CompileError, cause.OfBuilding ∧ Pattern.compile text = .error (.compile cause)) ↔
        Matched '(' ')' text.toList) := by
  refine ⟨fun ts => ⟨blames_toPostorder ts, exists_toPostorder_iff ts⟩, fun text => ?_⟩
  have hparse := blames_parse text
  have hok := exists_parse_iff text
  exact ⟨⟨hparse, hok⟩, blames_ofPattern text, blames_compile text, ok_or_ofBuilding_iff text⟩

-- An operator without operands and a quantifier without a rule do not come first.
example : Pattern.compile "*a?)(" = .error (.compile (.unbalancedParentheses .unopened)) := by
  decide

end PatternAutomata
