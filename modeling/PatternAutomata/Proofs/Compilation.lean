import PatternAutomata.Pattern
import PatternAutomata.Proofs.Building
import PatternAutomata.Proofs.Placement
import PatternAutomata.Proofs.Reordering

/-!
# What compiles, and to what

A pattern compiles exactly when it spells an expression whose operators all have construction rules,
or consists of parentheses around nothing. One direction follows the stages. For the other, a
denotation keeps its stack as high as the height of what it has read, so a sequence with a language
has height one. Reordering keeps the height and asks for matching parentheses, which together leave
room for nothing but a phrase of the grammar.
-/

namespace PatternAutomata

def nestedTokens (n : Nat) : List Token :=
  List.replicate n .openParen ++ List.replicate n .closeParen

theorem nestedTokens_succ (n : Nat) :
    nestedTokens (n + 1) = .openParen :: nestedTokens n ++ [.closeParen] := by
  rw [nestedTokens, nestedTokens, List.replicate_succ, List.replicate_succ']
  simp

theorem tokenize_nested (n : Nat) : tokenize (nested n) = nestedTokens n := by
  simp [tokenize, nested, nestedTokens, Token.ofChar]

theorem reorders_nestedTokens (n : Nat) : Reorders 0 (markConcat (nestedTokens n)) [] := by
  induction n with
  | zero => exact .nil
  | succ n ih =>
    rw [nestedTokens_succ, markConcat_group]
    exact ih.group

/-- Without a mark, no open parenthesis follows a closing one. -/
theorem exists_parens {depth : Nat} {ts : List Token} (hp : ∀ t ∈ markConcat ts, t.isParen = true)
    (hd : ts.foldlM depthAfter depth = some 0) :
    ∃ n, ts = List.replicate n .openParen ++ List.replicate (depth + n) .closeParen := by
  induction ts generalizing depth with
  | nil =>
    obtain rfl : depth = 0 := Option.some.inj hd
    exact ⟨0, rfl⟩
  | cons t ts ih =>
    obtain ⟨d, ht, hrest⟩ := Option.bind_eq_some_iff.1 hd
    rw [markConcat_cons, juxtapose_eq] at hp
    obtain ⟨n, hn⟩ := ih (fun u hu => hp u (by simp [hu])) hrest
    subst hn
    have htp : t.isParen = true := hp t (by simp)
    cases t with
    | openParen =>
      obtain rfl : depth + 1 = d := Option.some.inj ht
      refine ⟨n + 1, ?_⟩
      rw [Nat.add_right_comm, Nat.add_assoc, List.replicate_succ]
      rfl
    | closeParen =>
      cases depth with
      | zero => cases ht
      | succ depth =>
        obtain rfl : depth = d := Option.some.inj ht
        cases n with
        | zero => exact ⟨0, rfl⟩
        | succ n =>
          have hseam : seam [.closeParen] (markConcat
              (List.replicate (n + 1) .openParen ++ List.replicate (depth + (n + 1)) .closeParen)) =
              [.concat] :=
            seam_congr (head?_markConcat _)
          have hmark := hp .concat (by simp [hseam])
          cases hmark
    | literal c | concat | union | star | optional | plus => cases htp

theorem Spells.parse_eq_ok {pattern : String} {e : Expr} (h : Spells pattern e) :
    parse pattern = .ok e.postorder :=
  h.derives.reorders.toPostorder_eq_ok

theorem parse_nested (n : Nat) : parse (nested n) = .ok [] := by
  rw [parse, tokenize_nested]
  exact (reorders_nestedTokens n).toPostorder_eq_ok

theorem Phrase.exists_spells {pattern : String} (h : Phrase (tokenize pattern)) :
    ∃ e, Spells pattern e := by
  obtain ⟨e, he⟩ := h
  refine ⟨e, tokenize pattern, he, fun c hc => ?_, render_tokenize pattern⟩
  obtain ⟨d, -, hd⟩ := List.mem_map.1 hc
  exact Token.not_reserved_of_ofChar hd

theorem spells_or_nested {pattern : String} {out : List Token} {L : Language Char}
    (h : parse pattern = .ok out) (hL : Denotation.ofPostorder? out = some L) :
    (∃ e, Spells pattern e ∧ e.constructible = true) ∨ ∃ n, pattern = nested n := by
  have hd := foldlM_depthAfter_of_toPostorder h
  rw [foldlM_depthAfter_markConcat] at hd
  by_cases hne : out = []
  · right
    -- nothing is put out, so only parentheses were read and no mark separates two groups
    have hparens : ∀ t ∈ markConcat (tokenize pattern), t.isParen = true := by
      have hperm := perm_of_toPostorder h
      rw [hne] at hperm
      simpa [withoutParens] using hperm.nil_eq.symm
    obtain ⟨n, hn⟩ := exists_parens hparens hd
    rw [Nat.zero_add] at hn
    refine ⟨n, ?_⟩
    rw [← render_tokenize pattern, hn, ← nestedTokens, ← tokenize_nested, render_tokenize]
  · left
    obtain ⟨e', hc, rfl, -⟩ := Denotation.exists_expr_of_ofPostorder? hne hL
    have hheight := height_of_toPostorder h
    rw [Expr.height_postorder] at hheight
    obtain ⟨e, he⟩ := (phrase_of_height hheight.symm hd).exists_spells
    have hpostorder : e'.postorder = e.postorder := by
      have hok := he.parse_eq_ok
      rw [h] at hok
      exact Except.ok.inj hok
    refine ⟨e, he, ?_⟩
    rw [Expr.constructible_iff, ← hpostorder]
    exact Expr.constructible_iff.1 hc

namespace Automaton

theorem ofPattern_of_parse {pattern : String} {out : List Token} (h : parse pattern = .ok out) :
    ofPattern pattern = ofPostorder out := by
  rw [ofPattern, h]
  rfl

theorem exists_parse_of_ofPattern {pattern : String} {m : Automaton}
    (h : ofPattern pattern = .ok m) : ∃ out, parse pattern = .ok out ∧ ofPostorder out = .ok m := by
  cases hparse : parse pattern with
  | error cause =>
    rw [ofPattern, hparse] at h
    cases h
  | ok out =>
    rw [ofPattern_of_parse hparse] at h
    exact ⟨out, rfl, h⟩

theorem ofPattern_of_spells {pattern : String} {e : Expr} (h : Spells pattern e)
    (he : e.constructible = true) :
    ∃ m, ofPattern pattern = .ok m ∧ m.Recognizes e.language := by
  rw [ofPattern_of_parse h.parse_eq_ok]
  have hL := Denotation.ofPostorder?_postorder he
  exact ofPostorder_eq_ok hL

theorem ofPattern_nested (n : Nat) : ∃ m, ofPattern (nested n) = .ok m ∧ m.Recognizes 1 := by
  rw [ofPattern_of_parse (parse_nested n)]
  exact ofPostorder_nil_eq_ok

/-- The patterns that compile are those of the grammar and empty nests of parentheses. -/
theorem exists_ofPattern_iff (pattern : String) :
    (∃ m, ofPattern pattern = .ok m) ↔
      (∃ e, Spells pattern e ∧ e.constructible = true) ∨ ∃ n, pattern = nested n := by
  constructor
  · intro h
    obtain ⟨m, hm⟩ := h
    cases hparse : parse pattern with
    | error cause =>
      rw [ofPattern, hparse] at hm
      cases hm
    | ok out =>
      rw [ofPattern_of_parse hparse] at hm
      cases hL : Denotation.ofPostorder? out with
      | none =>
        obtain ⟨cause, herr⟩ := ofPostorder_eq_error hL
        rw [herr] at hm
        cases hm
      | some L => exact spells_or_nested hparse hL
  · intro h
    rcases h with ⟨e, he, hc⟩ | ⟨n, hn⟩
    · obtain ⟨m, hm, -⟩ := ofPattern_of_spells he hc
      exact ⟨m, hm⟩
    · subst hn
      obtain ⟨m, hm, -⟩ := ofPattern_nested n
      exact ⟨m, hm⟩

-- A missing operand is not made up for by a surplus elsewhere.
example : ["(|a)b", "a()", "(*a)b", "a..b", "()()"].all
    fun pattern => (ofPattern pattern).toBool == false := by decide

end Automaton

namespace Pattern

/-- Matching ends on every input, with the answer whether it is one of the `accepted` inputs. -/
def Decides (p : Pattern) (accepted : String → Prop) : Prop :=
  ∀ input, ∃ b, p.automaton.isMatch input = .ok b ∧ p.accepts input = .ok b ∧
    (b = true ↔ accepted input)

theorem decides_of_recognizes {m : Automaton} {L : Language Char} (h : m.Recognizes L)
    (text : String) : Decides ⟨text, m⟩ fun input => input.toList ∈ L := by
  intro input
  obtain ⟨b, hb, hiff⟩ := h.isMatch_eq_ok input
  refine ⟨b, hb, ?_, hiff⟩
  rw [accepts, hb]
  rfl

theorem compile_of_ofPattern {text : String} {m : Automaton}
    (h : Automaton.ofPattern text = .ok m) : compile text = .ok ⟨text, m⟩ := by
  rw [compile, h]
  rfl

theorem map_automaton_compile (text : String) :
    (compile text).map automaton = Automaton.ofPattern text := by
  rw [compile]
  cases Automaton.ofPattern text <;> rfl

/-- A pattern of the grammar compiles and decides its language; an empty nest of parentheses
compiles and decides the empty input. -/
theorem compile_decides_language :
    (∀ text e, Spells text e → e.constructible = true →
      ∃ p : Pattern, Automaton.ofPattern text = .ok p.automaton ∧ compile text = .ok p ∧
        p.Decides fun input => input.toList ∈ e.language) ∧
    ∀ n, ∃ p : Pattern, Automaton.ofPattern (nested n) = .ok p.automaton ∧
      compile (nested n) = .ok p ∧ p.Decides fun input => input = "" := by
  constructor
  · intro text e h he
    obtain ⟨m, hm, hrec⟩ := Automaton.ofPattern_of_spells h he
    exact ⟨⟨text, m⟩, hm, compile_of_ofPattern hm, decides_of_recognizes hrec text⟩
  · intro n
    obtain ⟨m, hm, hrec⟩ := Automaton.ofPattern_nested n
    refine ⟨⟨nested n, m⟩, hm, compile_of_ofPattern hm, fun input => ?_⟩
    obtain ⟨b, hmatch, haccepts, hiff⟩ := decides_of_recognizes hrec (nested n) input
    have hone : input.toList ∈ (1 : Language Char) ↔ input = "" := by
      rw [Language.mem_one, String.toList_eq_nil_iff]
    exact ⟨b, hmatch, haccepts, hiff.trans hone⟩

theorem compile_decides_starred :
    ∃ p, compile "(a|b)*c" = .ok p ∧ p.Decides fun input =>
      input.toList ∈ (KStar.kstar ({['a']} + {['b']}) * {['c']} : Language Char) := by
  have halt := Derives.union (.term (.factor (.literal 'a'))) (.factor (.literal 'b'))
  have hall := Derives.juxtaposed (.factor halt.group.star) (.literal 'c')
  have hspells : Spells "(a|b)*c" _ :=
    ⟨_, hall.term, by simp [reservedChars, or_imp, forall_and], rfl⟩
  obtain ⟨p, -, hp, hdecides⟩ := compile_decides_language.1 _ _ hspells rfl
  exact ⟨p, hp, hdecides⟩

end Pattern

end PatternAutomata
