import PatternAutomata.Proofs.Complaints
import PatternAutomata.Proofs.Conservation

/-!
# The printed postorder

Printing forgets which tokens are literals: a literal that holds a reserved character is printed
like an operator. Nothing else is lost. Reading a text back gives the tokens that were printed
exactly when no literal among them is of that kind. Whatever parsing puts out comes from the
characters of a pattern or is a mark, so its literals are none of these. The printed postorder of a
pattern can be read back, and it determines what is built from the pattern.
-/

namespace PatternAutomata

theorem tokenize_render_iff {ts : List Token} :
    tokenize (render ts) = ts ↔ ∀ c, .literal c ∈ ts → c ∉ reservedChars := by
  constructor
  · intro h c hc
    exact Token.not_reserved_of_ofChar (tokenize_render.1 h (.literal c) hc)
  · exact tokenize_of_literals

section Parsed

variable {text : String} {ts : List Token} (h : parse text = .ok ts)

include h

theorem literals_of_parse : literals ts = literals (tokenize text) := by
  rw [literals_of_toPostorder h, literals_markConcat]

theorem not_reserved_of_parse {c : Char} (hc : .literal c ∈ ts) : c ∉ reservedChars := by
  have hlit : Token.literal c ∈ literals (tokenize text) := by
    rw [← literals_of_parse h]
    exact List.mem_filter.2 ⟨hc, rfl⟩
  obtain ⟨d, -, hd⟩ := List.mem_map.1 (List.mem_filter.1 hlit).1
  exact Token.not_reserved_of_ofChar hd

theorem tokenize_render_of_parse : tokenize (render ts) = ts :=
  tokenize_render_iff.2 fun _ hc => not_reserved_of_parse h hc

theorem ofPostorder_of_render :
    Automaton.ofPostorder (tokenize (render ts)) = Automaton.ofPattern text := by
  rw [tokenize_render_of_parse h, Automaton.ofPattern_of_parse h]

theorem eq_of_render_eq {text' : String} {us : List Token} (h' : parse text' = .ok us)
    (heq : render ts = render us) : ts = us := by
  rw [← tokenize_render_of_parse h, ← tokenize_render_of_parse h', heq]

end Parsed

/-- What is built from a pattern can be built from its printed postorder, or fails for the same
cause. Patterns have the same postorder when the printed texts are the same. Any token sequence is
read back from its text unless a literal holds a reserved character, and any text is printed as it
was read. -/
theorem printed_postorder_determines :
    (∀ text ts, parse text = .ok ts →
      tokenize (render ts) = ts ∧
      Automaton.ofPostorder (tokenize (render ts)) = Automaton.ofPattern text ∧
      Automaton.ofPostorder (tokenize (render ts)) = (Pattern.compile text).map Pattern.automaton) ∧
    (∀ text text' ts us, parse text = .ok ts → parse text' = .ok us →
      (render ts = render us ↔ ts = us) ∧
      (render ts = render us → Automaton.ofPattern text = Automaton.ofPattern text')) ∧
    (∀ ts, tokenize (render ts) = ts ↔ ∀ c, .literal c ∈ ts → c ∉ reservedChars) ∧
    ∀ text, render (tokenize text) = text := by
  refine ⟨fun text ts h => ?_,
    fun text text' ts us h h' => ⟨⟨eq_of_render_eq h h', congrArg render⟩, fun heq => ?_⟩,
    fun ts => tokenize_render_iff, render_tokenize⟩
  · rw [Pattern.map_automaton_compile]
    exact ⟨tokenize_render_of_parse h, ofPostorder_of_render h, ofPostorder_of_render h⟩
  · rw [← ofPostorder_of_render h, heq, ofPostorder_of_render h']

theorem printed_postorder_determines_grouped :
    Automaton.ofPostorder (tokenize "ab.c|") = Automaton.ofPattern "(ab)|c" ∧
    Automaton.ofPattern "(ab)|c" = Automaton.ofPattern "a.b|c" ∧
    Automaton.ofPostorder (tokenize "a|*") = Automaton.ofPattern "(|a)*" := by
  have hgroup : parse "(ab)|c" =
      .ok [.literal 'a', .literal 'b', .concat, .literal 'c', .union] := by decide
  have hdot : parse "a.b|c" =
      .ok [.literal 'a', .literal 'b', .concat, .literal 'c', .union] := by decide
  have hbar : parse "(|a)*" = .ok [.literal 'a', .union, .star] := by decide
  obtain ⟨hbuild, hsame, -, -⟩ := printed_postorder_determines
  exact ⟨(hbuild _ _ hgroup).2.1, (hsame _ _ _ _ hgroup hdot).2 rfl, (hbuild _ _ hbar).2.1⟩

-- A literal that is printed like an operator is read back as that operator.
example : tokenize (render [.literal 'a', .literal '*']) = [.literal 'a', .star] := by decide

end PatternAutomata
