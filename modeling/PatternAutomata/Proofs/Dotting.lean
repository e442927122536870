import Mathlib.Data.Finset.Insert
import PatternAutomata.Proofs.Compilation
import PatternAutomata.Proofs.Marking

/-!
# Dots that may be written or left out

A sequence is marked when no token that ends an operand touches one that begins an operand. Marking
gives such a sequence and leaves it as it is from then on. A dot written where operands touch is the
mark that would have been put there, and it asks for no other mark on either side. So any of these
dots may be written: the postorder is the same, and with it all that comes of the pattern.
-/

namespace PatternAutomata

/-- No operand ends where another one begins. -/
def Marked (ts : List Token) : Prop :=
  ts.IsChain fun t u => (t.endsOperand && u.beginsOperand) = false

theorem Marked.juxtapose {ts : List Token} (h : Marked ts) (t : Token) :
    Marked (juxtapose t ts) := by
  cases ts with
  | nil => exact .singleton t
  | cons u ts =>
    rw [PatternAutomata.juxtapose]
    split
    · have hmark : (t.endsOperand && Token.concat.beginsOperand) = false := Bool.and_false _
      exact .cons_cons hmark (.cons_cons rfl h)
    · next hseam => exact .cons_cons (Bool.eq_false_iff.2 hseam) h

theorem marked_markConcat (ts : List Token) : Marked (markConcat ts) := by
  induction ts with
  | nil => exact .nil
  | cons t ts ih => exact ih.juxtapose t

theorem markConcat_of_marked {ts : List Token} (h : Marked ts) : markConcat ts = ts := by
  induction h with
  | nil => rfl
  | singleton t => rfl
  | cons_cons hseam _ ih =>
    rw [markConcat_cons, ih, juxtapose, hseam]
    rfl

theorem markConcat_markConcat (ts : List Token) : markConcat (markConcat ts) = markConcat ts :=
  markConcat_of_marked (marked_markConcat ts)

theorem markConcat_append_concat {ts us : List Token} (h : seam ts us = [.concat]) :
    markConcat (ts ++ .concat :: us) = markConcat (ts ++ us) := by
  rw [markConcat_between rfl rfl, markConcat_append, h, List.append_assoc]
  rfl

/-- An operand ends with token number `j` and another one begins with the next. -/
def Touching (ts : List Token) (j : Nat) : Prop :=
  ∃ t u, ts[j]? = some t ∧ ts[j + 1]? = some u ∧ t.endsOperand = true ∧ u.beginsOperand = true

theorem Touching.seam_eq {t u : Token} {ts : List Token} (h : Touching (t :: u :: ts) 0)
    (us : List Token) : seam [t] (u :: us) = [.concat] := by
  obtain ⟨t', u', ht, hu, hends, hbegins⟩ := h
  obtain rfl := Option.some.inj ht
  obtain rfl := Option.some.inj hu
  rw [seam_singleton_cons, hends, hbegins]
  rfl

/-- Write `mark` before each of `xs` whose number is in `places`; the first one has number `n`. -/
def writeAt {α : Type} (mark : α) (places : Finset Nat) : Nat → List α → List α
  | _, [] => []
  | n, x :: xs =>
    if n ∈ places then
      mark :: x :: writeAt mark places (n + 1) xs
    else
      x :: writeAt mark places (n + 1) xs

theorem map_writeAt {α β : Type} (f : α → β) (mark : α) (places : Finset Nat) (n : Nat)
    (xs : List α) :
    (writeAt mark places n xs).map f = writeAt (f mark) places n (xs.map f) := by
  induction xs generalizing n with
  | nil => rfl
  | cons x xs ih =>
    rw [writeAt, List.map_cons, writeAt, ← ih]
    split <;> rfl

theorem markConcat_cons_writeAt {places : Finset Nat} {n : Nat} {t : Token} {ts : List Token}
    (h : ∀ j, n + 1 + j ∈ places → Touching (t :: ts) j) :
    markConcat (t :: writeAt .concat places (n + 1) ts) = markConcat (t :: ts) := by
  -- the token before is kept in front: whether a dot may be written depends on it
  induction ts generalizing n t with
  | nil => rfl
  | cons u ts ih =>
    have hrest : markConcat (u :: writeAt .concat places (n + 2) ts) = markConcat (u :: ts) := by
      refine ih fun j hj => h (j + 1) ?_
      rwa [Nat.add_right_comm (n + 1) 1 j] at hj
    rw [writeAt]
    generalize writeAt .concat places (n + 2) ts = us at hrest ⊢
    split
    · next hplace =>
      have hwritten := markConcat_append_concat ((h 0 hplace).seam_eq us)
      rw [List.singleton_append, List.singleton_append] at hwritten
      rw [hwritten, markConcat_cons, hrest, ← markConcat_cons]
    · rw [markConcat_cons, hrest, ← markConcat_cons]

theorem markConcat_writeAt {places : Finset Nat} {ts : List Token}
    (h : ∀ i ∈ places, ∃ j, i = j + 1 ∧ Touching ts j) :
    markConcat (writeAt .concat places 0 ts) = markConcat ts := by
  cases ts with
  | nil => rfl
  | cons t ts =>
    have hfirst : 0 ∉ places := by
      intro hplace
      obtain ⟨j, hj, -⟩ := h 0 hplace
      cases hj
    rw [writeAt, if_neg hfirst]
    refine markConcat_cons_writeAt fun j hj => ?_
    obtain ⟨k, hk, htouch⟩ := h _ hj
    obtain rfl : j = k := by omega
    exact htouch

theorem Token.endsOperand_ofChar (c : Char) :
    (ofChar c).endsOperand = true ↔ c ∉ reservedChars ∨ c ∈ [')', '*', '?', '+'] := by
  obtain ⟨t, ht⟩ : ∃ t, ofChar c = t := ⟨_, rfl⟩
  obtain rfl : t.toChar = c := by rw [← ht, toChar_ofChar]
  rw [ht]
  cases t with
  | literal d => exact iff_of_true rfl (.inl (not_reserved_of_ofChar ht))
  | concat | union | star | optional | plus | openParen | closeParen => decide

theorem Token.beginsOperand_ofChar (c : Char) :
    (ofChar c).beginsOperand = true ↔ c ∉ reservedChars ∨ c = '(' := by
  obtain ⟨t, ht⟩ : ∃ t, ofChar c = t := ⟨_, rfl⟩
  obtain rfl : t.toChar = c := by rw [← ht, toChar_ofChar]
  rw [ht]
  cases t with
  | literal d => exact iff_of_true rfl (.inl (not_reserved_of_ofChar ht))
  | concat | union | star | optional | plus | openParen | closeParen => decide

/-- Character number `i` of `text`, counted from zero, is a literal or an opening parenthesis, and
the one before it is a literal, a closing parenthesis or a quantifier. -/
def OperandsMeet (text : String) (i : Nat) : Prop :=
  ∃ j c d, i = j + 1 ∧ text.toList[j]? = some c ∧ text.toList[j + 1]? = some d ∧
    (c ∉ reservedChars ∨ c ∈ [')', '*', '?', '+']) ∧ (d ∉ reservedChars ∨ d = '(')

theorem OperandsMeet.touching {text : String} {i : Nat} (h : OperandsMeet text i) :
    ∃ j, i = j + 1 ∧ Touching (tokenize text) j := by
  obtain ⟨j, c, d, hi, hc, hd, hends, hbegins⟩ := h
  refine ⟨j, hi, .ofChar c, .ofChar d, ?_, ?_, ?_, ?_⟩
  · rw [tokenize, List.getElem?_map, hc]
    rfl
  · rw [tokenize, List.getElem?_map, hd]
    rfl
  · exact (Token.endsOperand_ofChar c).2 hends
  · exact (Token.beginsOperand_ofChar d).2 hbegins

def dotted (places : Finset Nat) (text : String) : String :=
  String.ofList (writeAt '.' places 0 text.toList)

theorem tokenize_dotted (places : Finset Nat) (text : String) :
    tokenize (dotted places text) = writeAt .concat places 0 (tokenize text) := by
  rw [dotted, tokenize, String.toList_ofList, map_writeAt]
  rfl

theorem parse_dotted {places : Finset Nat} {text : String}
    (h : ∀ i ∈ places, OperandsMeet text i) : parse (dotted places text) = parse text := by
  rw [parse, tokenize_dotted, markConcat_writeAt fun i hi => (h i hi).touching]
  rfl

/-- Marking twice is marking once. In a pattern, dots may be written between any operands that
touch: it is parsed and compiled as before, or fails for the same cause. -/
theorem dots_are_interchangeable :
    (∀ ts, markConcat (markConcat ts) = markConcat ts) ∧
    ∀ (text : String) (places : Finset Nat), (∀ i ∈ places, OperandsMeet text i) →
      parse (dotted places text) = parse text ∧
      Automaton.ofPattern (dotted places text) = Automaton.ofPattern text ∧
      (Pattern.compile (dotted places text)).map Pattern.automaton =
        (Pattern.compile text).map Pattern.automaton := by
  refine ⟨markConcat_markConcat, fun text places h => ?_⟩
  have hparse := parse_dotted h
  have hbuild : Automaton.ofPattern (dotted places text) = Automaton.ofPattern text := by
    rw [Automaton.ofPattern, hparse]
    rfl
  refine ⟨hparse, hbuild, ?_⟩
  rw [Pattern.map_automaton_compile, Pattern.map_automaton_compile, hbuild]

theorem dots_are_interchangeable_dangling :
    dotted {4, 6} "(|a)b*(c)" = "(|a).b*.(c)" ∧
    parse "(|a).b*.(c)" = parse "(|a)b*(c)" ∧
    Automaton.ofPattern "(|a).b*.(c)" = Automaton.ofPattern "(|a)b*(c)" := by
  have hmeet : ∀ i ∈ ({4, 6} : Finset Nat), OperandsMeet "(|a)b*(c)" i := by
    intro i hi
    rcases Finset.mem_insert.1 hi with rfl | hi
    · exact ⟨3, ')', 'b', rfl, rfl, rfl, by decide, by decide⟩
    · rw [Finset.mem_singleton.1 hi]
      exact ⟨5, '*', '(', rfl, rfl, rfl, by decide, by decide⟩
  have hdotted : dotted {4, 6} "(|a)b*(c)" = "(|a).b*.(c)" := by decide
  obtain ⟨hparse, hbuild, -⟩ := dots_are_interchangeable.2 _ _ hmeet
  rw [hdotted] at hparse hbuild
  exact ⟨hdotted, hparse, hbuild⟩

end PatternAutomata
