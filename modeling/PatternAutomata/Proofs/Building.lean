import PatternAutomata.Construction
import PatternAutomata.Expr.Language
import PatternAutomata.Proofs.Assembly

/-!
# The builder follows the stack of languages

The fragments that wait in a builder recognise the languages on the stack of the denotation, place
by place. Every token keeps this, because a rule combines the languages of its operands in the same
way and leaves the other fragments alone. The builder rejects a token exactly when the stack does.
At the end one fragment is left where one language is left, and its automaton decides that language.
-/

namespace PatternAutomata

open Automaton

/-- One part holds all states, and matching starts at its entry. -/
def Automaton.Recognizes (m : Automaton) (L : Language Char) : Prop :=
  ∃ p : Part, m.Assembled [p] ∧ m.start = p.fragment.entry ∧ p.language = L

theorem Automaton.Recognizes.isMatch_eq_ok {m : Automaton} {L : Language Char}
    (h : m.Recognizes L) (input : String) :
    ∃ b, m.isMatch input = .ok b ∧ (b = true ↔ input.toList ∈ L) := by
  obtain ⟨p, hm, hstart, rfl⟩ := h
  exact hm.isMatch_eq_ok (by simp) hstart input

namespace Builder

def Denotes (b : Builder) (stack : List (Language Char)) : Prop :=
  ∃ parts, b.automaton.Assembled parts ∧ parts.map Part.fragment = b.pending ∧
    parts.map Part.language = stack

/-- Building gives a builder for the languages of the stack, or both fail. -/
def Follows (built : Except Error Builder) : Option (List (Language Char)) → Prop
  | some stack => ∃ b, built = .ok b ∧ b.Denotes stack
  | none => ∃ cause, built = .error (.compile cause)

theorem denotes_empty : Denotes .empty [] :=
  ⟨[], .empty 0, rfl, rfl⟩

theorem follows_extend {m m' : Automaton} {rule : EditM Fragment} {p : Part} {rest : List Part}
    (hrule : rule m = .ok p.fragment m') (h : m'.Assembled (p :: rest)) :
    Follows (extend m (rest.map Part.fragment) rule)
      (some (p.language :: rest.map Part.language)) := by
  refine ⟨⟨m', p.fragment :: rest.map Part.fragment⟩, ?_, p :: rest, h, rfl, rfl⟩
  rw [extend, hrule]

theorem Denotes.follows_apply {b : Builder} {stack : List (Language Char)} (h : b.Denotes stack)
    (t : Token) : Follows (b.apply t) <| Operations.languages.push stack t := by
  obtain ⟨m, pending⟩ := b
  obtain ⟨parts, hm, hpending, rfl⟩ := h
  obtain rfl : parts.map Part.fragment = pending := hpending
  cases t with
  | literal c =>
    obtain ⟨m', hrule, hm'⟩ := hm.symbol c
    exact follows_extend hrule hm'
  | star =>
    cases parts with
    | nil => exact ⟨_, rfl⟩
    | cons inner rest =>
      obtain ⟨m', hrule, hm'⟩ := hm.closure
      exact follows_extend hrule hm'
  | union =>
    rcases parts with _ | ⟨second, _ | ⟨first, rest⟩⟩
    · exact ⟨_, rfl⟩
    · exact ⟨_, rfl⟩
    -- the latest fragment is the second operand
    · obtain ⟨m', hrule, hm'⟩ := (hm.perm (.swap first second rest)).union
      exact follows_extend hrule hm'
  | concat =>
    rcases parts with _ | ⟨second, _ | ⟨first, rest⟩⟩
    · exact ⟨_, rfl⟩
    · exact ⟨_, rfl⟩
    · obtain ⟨m', hrule, hm'⟩ := (hm.perm (.swap first second rest)).concat
      exact follows_extend hrule hm'
  | optional | plus | openParen | closeParen => exact ⟨_, rfl⟩

theorem Denotes.follows_foldlM {b : Builder} {stack : List (Language Char)} (h : b.Denotes stack)
    (ts : List Token) :
    Follows (ts.foldlM apply b) (ts.foldlM Operations.languages.push stack) := by
  induction ts generalizing b stack with
  | nil => exact ⟨b, rfl, h⟩
  | cons t ts ih =>
    have hstep := h.follows_apply t
    rw [List.foldlM_cons, List.foldlM_cons]
    cases hp : Operations.languages.push stack t with
    | none =>
      rw [hp] at hstep
      obtain ⟨cause, hstep⟩ := hstep
      rw [hstep]
      exact ⟨cause, rfl⟩
    | some stack' =>
      rw [hp] at hstep
      obtain ⟨b', hstep, hb'⟩ := hstep
      rw [hstep]
      exact ih hb'

theorem Denotes.finish_eq_ok {b : Builder} {L : Language Char} (h : b.Denotes [L]) :
    ∃ m, b.finish = .ok m ∧ m.Recognizes L := by
  obtain ⟨m, pending⟩ := b
  obtain ⟨parts, hm, hpending, hL⟩ := h
  obtain ⟨p, rfl, hp⟩ := List.map_eq_singleton_iff.1 hL
  obtain rfl : [p.fragment] = pending := hpending
  exact ⟨_, rfl, p, hm.withStart _, rfl, hp⟩

theorem Denotes.finish_eq_error {b : Builder} {stack : List (Language Char)} (h : b.Denotes stack)
    (hne : ∀ L, stack ≠ [L]) : b.finish = .error (.compile (.malformed stack.length)) := by
  obtain ⟨m, pending⟩ := b
  obtain ⟨parts, -, hpending, rfl⟩ := h
  obtain rfl : parts.map Part.fragment = pending := hpending
  rcases parts with _ | ⟨p, _ | ⟨q, rest⟩⟩
  · rfl
  · exact absurd rfl (hne p.language)
  · simp [finish, malformed]

end Builder

namespace Automaton

theorem ofPostorder_nil_eq_ok : ∃ m, ofPostorder [] = .ok m ∧ m.Recognizes 1 := by
  obtain ⟨m, hrule, hm⟩ := (Assembled.empty 0).epsilon
  obtain ⟨b, hb, hden⟩ := Builder.follows_extend hrule hm
  obtain ⟨m', hfin, hrec⟩ := hden.finish_eq_ok
  refine ⟨m', ?_, hrec⟩
  calc ofPostorder [] = Except.ok b >>= Builder.finish := congrArg (· >>= Builder.finish) hb
    _ = .ok m' := hfin

theorem ofPostorder_eq_ok {ts : List Token} {L : Language Char}
    (h : Denotation.ofPostorder? ts = some L) :
    ∃ m, ofPostorder ts = .ok m ∧ m.Recognizes L := by
  by_cases hne : ts = []
  · subst hne
    obtain rfl : (1 : Language Char) = L := Option.some.inj h
    exact ofPostorder_nil_eq_ok
  · have hrun := Builder.denotes_empty.follows_foldlM ts
    have hiff := Denotation.ofPostorder?_eq_some_iff hne (L := L)
    rw [hiff.1 h] at hrun
    obtain ⟨b, hb, hden⟩ := hrun
    obtain ⟨m, hfin, hrec⟩ := hden.finish_eq_ok
    exact ⟨m, by rw [ofPostorder_of_ne_nil hne, hb]; exact hfin, hrec⟩

theorem ofPostorder_eq_error {ts : List Token} (h : Denotation.ofPostorder? ts = none) :
    ∃ cause, ofPostorder ts = .error (.compile cause) := by
  have hne : ts ≠ [] := by
    intro hts
    subst hts
    cases h
  have hrun := Builder.denotes_empty.follows_foldlM ts
  rw [ofPostorder_of_ne_nil hne]
  cases hp : ts.foldlM Operations.languages.push [] with
  | none =>
    rw [hp] at hrun
    obtain ⟨cause, hb⟩ := hrun
    exact ⟨cause, by rw [hb]; rfl⟩
  | some stack =>
    rw [hp] at hrun
    obtain ⟨b, hb, hden⟩ := hrun
    have hstack : ∀ L, stack ≠ [L] := by
      intro L hL
      rw [hL, ← Denotation.ofPostorder?_eq_some_iff hne, h] at hp
      cases hp
    exact ⟨_, by rw [hb]; exact hden.finish_eq_error hstack⟩

theorem exists_recognizes_of_ofPostorder {ts : List Token} {m : Automaton}
    (h : ofPostorder ts = .ok m) :
    ∃ L, Denotation.ofPostorder? ts = some L ∧ m.Recognizes L := by
  cases hL : Denotation.ofPostorder? ts with
  | none =>
    obtain ⟨cause, hm⟩ := ofPostorder_eq_error hL
    rw [hm] at h
    cases h
  | some L =>
    obtain ⟨m', hm', hrec⟩ := ofPostorder_eq_ok hL
    rw [hm'] at h
    obtain rfl := Except.ok.inj h
    exact ⟨L, rfl, hrec⟩

theorem decides_denotation_of_ofPostorder {ts : List Token} {m : Automaton}
    (h : ofPostorder ts = .ok m) :
    ∃ L, Denotation.ofPostorder? ts = some L ∧
      ∀ input, ∃ b, m.isMatch input = .ok b ∧ (b = true ↔ input.toList ∈ L) := by
  obtain ⟨L, hL, hrec⟩ := exists_recognizes_of_ofPostorder h
  exact ⟨L, hL, hrec.isMatch_eq_ok⟩

/-- A literal that is written like an operator is an operand all the same. -/
theorem decides_denotation_starred_star :
    ∃ m L, ofPostorder [.literal '*', .star] = .ok m ∧ L = KStar.kstar ({['*']} : Language Char) ∧
      ∀ input, ∃ b, m.isMatch input = .ok b ∧ (b = true ↔ input.toList ∈ L) := by
  have hL : Denotation.ofPostorder? [.literal '*', .star] = some (KStar.kstar {['*']}) := rfl
  obtain ⟨m, hm, -⟩ := ofPostorder_eq_ok hL
  obtain ⟨L, hden, hmatch⟩ := decides_denotation_of_ofPostorder hm
  have hLs : L = KStar.kstar {['*']} := Option.some.inj (hden.symm.trans hL)
  exact ⟨m, L, hm, hLs, hmatch⟩

end Automaton

end PatternAutomata
