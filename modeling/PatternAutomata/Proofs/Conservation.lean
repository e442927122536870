import Mathlib.Data.List.Chain
import PatternAutomata.Proofs.Dotting
import PatternAutomata.Proofs.Substitution

/-!
# What reordering keeps

Reordering puts out every token but the parentheses, each as often as it stands there. Literals are
put out at once and never overtake each other. A quantifier waits, but the next operator or closing
parenthesis releases it, since nothing binds more tightly. Only a literal could overtake it, or an
opening parenthesis bury it, and in a marked sequence neither stands behind a quantifier. So there
the only tokens that move are bars and dots.
-/

namespace PatternAutomata

/-- The tokens that keep their order: literals and quantifiers. -/
def unmoved (ts : List Token) : List Token := ts.filter fun t => t.isLiteral || t.isQuantifier

theorem unmoved_append (ts us : List Token) : unmoved (ts ++ us) = unmoved ts ++ unmoved us :=
  List.filter_append ts us

theorem unmoved_cons (t : Token) (ts : List Token) :
    unmoved (t :: ts) = unmoved [t] ++ unmoved ts :=
  unmoved_append [t] ts

theorem literals_of_toPostorder {ts out : List Token} (h : toPostorder ts = .ok out) :
    literals out = literals ts := by
  obtain ⟨y, hrun, hdepth, hout⟩ := exists_yard_of_toPostorder h
  have hemitted := Yard.WellFormed.empty.literals_foldlM_push hrun
  have hwaiting : literals y.waiting = [] := by
    refine literals_of_precedence fun t ht => ?_
    rcases (Yard.WellFormed.empty.foldlM_push hrun).waiting t ht with rfl | hop
    · exact absurd rfl (List.countP_eq_zero.1 hdepth _ ht)
    · exact hop
  rw [← hout, Array.toList_appendList, literals_append, hemitted, hwaiting, List.append_nil]
  rfl

namespace Token

variable {t : Token}

theorem precedence_of_isQuantifier (h : t.isQuantifier = true) : t.precedence = some 2 := by
  cases t with
  | star | optional | plus => rfl
  | literal c | concat | union | openParen | closeParen => cases h

theorem precedence_le_two {n : Nat} (h : t.precedence = some n) : n ≤ 2 := by
  cases t with
  | literal c | openParen | closeParen => cases h
  | concat | union | star | optional | plus =>
    obtain rfl := Option.some.inj h
    decide

theorem endsOperand_of_isQuantifier (h : t.isQuantifier = true) : t.endsOperand = true := by
  cases t with
  | star | optional | plus => rfl
  | literal c | concat | union | openParen | closeParen => cases h

end Token

theorem unmoved_eq_nil {ts : List Token}
    (hwait : ∀ t ∈ ts, t = .openParen ∨ ∃ n, t.precedence = some n)
    (hquantifier : ∀ t ∈ ts, t.isQuantifier = false) : unmoved ts = [] := by
  refine List.filter_eq_nil_iff.2 fun t ht => ?_
  rw [hquantifier t ht, Bool.or_false]
  rcases hwait t ht with rfl | ⟨n, hn⟩
  · exact Bool.false_ne_true
  · cases t with
    | literal c => cases hn
    | concat | union | star | optional | plus | openParen | closeParen => exact Bool.false_ne_true

namespace Yard

variable {y y' : Yard} {t : Token} {ts waiting : List Token}

theorem yields_of_isQuantifier {op : Token} {n : Nat} (hop : op.precedence = some n)
    (ht : t.isQuantifier = true) : yields op t = true := by
  have hn : n ≤ 2 := Token.precedence_le_two hop
  simp [yields, Token.precedence_of_isQuantifier ht, hop, hn]

/-- A quantifier can only wait on top, and not where an operand may begin next. -/
structure Poised (y : Yard) (next : Option Token) : Prop where
  below : ∀ t ∈ y.waiting.tail, t.isQuantifier = false
  top : next.any Token.beginsOperand = true → ∀ t ∈ y.waiting, t.isQuantifier = false

theorem not_isQuantifier_of_mem_dropWhile {op : Token} {n : Nat} (hop : op.precedence = some n)
    (hbelow : ∀ t ∈ waiting.tail, t.isQuantifier = false) :
    ∀ t ∈ waiting.dropWhile (yields op), t.isQuantifier = false := by
  intro t ht
  cases waiting with
  | nil => cases ht
  | cons u waiting =>
    cases hu : u.isQuantifier with
    | true =>
      rw [List.dropWhile_cons_of_pos (yields_of_isQuantifier hop hu)] at ht
      exact hbelow t ((List.dropWhile_sublist _).subset ht)
    | false =>
      rcases List.mem_cons.1 ((List.dropWhile_sublist _).subset ht) with rfl | ht
      · exact hu
      · exact hbelow t ht

theorem Poised.push {next : Option Token} (h : y.Poised (some t)) (hpush : y.push t = .ok y')
    (hnext : ∀ u ∈ next, (t.endsOperand && u.beginsOperand) = false) : y'.Poised next := by
  obtain ⟨hbelow, htop⟩ := h
  induction y, t using push_cases with
  | operator emitted waiting op n hop =>
    rw [push_operator hop] at hpush
    obtain rfl := Except.ok.inj hpush
    have hrest := not_isQuantifier_of_mem_dropWhile hop hbelow
    refine ⟨hrest, fun hbegins t ht => ?_⟩
    rcases List.mem_cons.1 ht with rfl | ht
    · obtain ⟨u, hu, hbegins⟩ := (Option.any_eq_true _ _).1 hbegins
      have hends : t.endsOperand = false := by simpa [hbegins] using hnext u hu
      refine Bool.eq_false_iff.2 fun hq => ?_
      rw [Token.endsOperand_of_isQuantifier hq] at hends
      cases hends
    · exact hrest t ht
  | literal emitted waiting c =>
    obtain rfl := Except.ok.inj hpush
    exact ⟨hbelow, fun _ => htop rfl⟩
  | openParen emitted waiting =>
    obtain rfl := Except.ok.inj hpush
    refine ⟨htop rfl, fun _ t ht => ?_⟩
    rcases List.mem_cons.1 ht with rfl | ht
    · rfl
    · exact htop rfl t ht
  | closeParen emitted inner outer hinner =>
    rw [push_closeParen hinner] at hpush
    obtain rfl := Except.ok.inj hpush
    have houter : ∀ t ∈ outer, t.isQuantifier = false := by
      intro t ht
      refine hbelow t ?_
      cases inner with
      | nil => exact ht
      | cons u inner => exact List.mem_append_right _ (List.mem_cons_of_mem _ ht)
    exact ⟨fun t ht => houter t (List.mem_of_mem_tail ht), fun _ => houter⟩
  | unopened emitted waiting hnone =>
    rw [push_closeParen_of_unopened hnone] at hpush
    cases hpush

def unmovedTokens (y : Yard) : List Token := unmoved (y.emitted.toList ++ y.waiting)

theorem Poised.unmovedTokens_push (hy : y.WellFormed) (h : y.Poised (some t))
    (hpush : y.push t = .ok y') : y'.unmovedTokens = y.unmovedTokens ++ unmoved [t] := by
  obtain ⟨hbelow, htop⟩ := h
  have hwaiting := hy.waiting
  rw [unmovedTokens, unmovedTokens]
  induction y, t using push_cases with
  | operator emitted waiting op n hop =>
    rw [push_operator hop] at hpush
    obtain rfl := Except.ok.inj hpush
    have hrest : unmoved (waiting.dropWhile (yields op)) = [] :=
      unmoved_eq_nil (fun t ht => hwaiting t ((List.dropWhile_sublist _).subset ht))
        (not_isQuantifier_of_mem_dropWhile hop hbelow)
    have hwhole := unmoved_append (waiting.takeWhile (yields op)) (waiting.dropWhile (yields op))
    rw [List.takeWhile_append_dropWhile, hrest, List.append_nil] at hwhole
    rw [Array.toList_appendList, unmoved_append, unmoved_append, unmoved_cons op, hrest,
      unmoved_append, hwhole, List.append_nil]
  | literal emitted waiting c =>
    obtain rfl := Except.ok.inj hpush
    have hnone : unmoved waiting = [] := unmoved_eq_nil hwaiting (htop rfl)
    rw [Array.toList_push, unmoved_append, unmoved_append, unmoved_append, hnone, List.append_nil,
      List.append_nil]
  | openParen emitted waiting =>
    obtain rfl := Except.ok.inj hpush
    rw [unmoved_append, unmoved_append]
    exact (List.append_nil _).symm
  | closeParen emitted inner outer hinner =>
    rw [push_closeParen hinner] at hpush
    obtain rfl := Except.ok.inj hpush
    rw [Array.toList_appendList, unmoved_append, unmoved_append, unmoved_append, unmoved_append,
      List.append_assoc]
    exact (List.append_nil _).symm
  | unopened emitted waiting hnone =>
    rw [push_closeParen_of_unopened hnone] at hpush
    cases hpush

theorem Poised.unmovedTokens_foldlM_push (hy : y.WellFormed) (h : y.Poised ts.head?)
    (hmarked : Marked ts) (hrun : ts.foldlM Yard.push y = .ok y') :
    y'.unmovedTokens = y.unmovedTokens ++ unmoved ts := by
  induction ts generalizing y with
  | nil =>
    obtain rfl := Except.ok.inj hrun
    exact (List.append_nil _).symm
  | cons t ts ih =>
    obtain ⟨y₁, hpush, hrest⟩ := exists_push_of_foldlM hrun
    obtain ⟨hnext, hmarked⟩ := List.isChain_cons.1 hmarked
    rw [ih (hy.push hpush) (h.push hpush hnext) hmarked hrest, h.unmovedTokens_push hy hpush,
      List.append_assoc, ← unmoved_cons]

end Yard

theorem unmoved_of_toPostorder {ts out : List Token} (hmarked : Marked ts)
    (h : toPostorder ts = .ok out) : unmoved out = unmoved ts := by
  obtain ⟨y, hrun, -, hout⟩ := exists_yard_of_toPostorder h
  have hstart : Yard.empty.Poised ts.head? := ⟨by simp [Yard.empty], by simp [Yard.empty]⟩
  have hread := hstart.unmovedTokens_foldlM_push .empty hmarked hrun
  rw [← hout, Array.toList_appendList]
  exact hread

/-- Reordering puts out each token but the parentheses as often as it is read, and literals in the
order in which they are read. In a marked sequence literals and quantifiers together keep their
order. -/
theorem toPostorder_conserves {ts out : List Token} (h : toPostorder ts = .ok out) :
    out.Perm (withoutParens ts) ∧ (∀ t ∈ out, t.isParen = false) ∧ literals out = literals ts ∧
      ∀ us, markConcat us = ts → unmoved out = unmoved ts := by
  refine ⟨perm_of_toPostorder h, fun t => isParen_of_mem_toPostorder h,
    literals_of_toPostorder h, ?_⟩
  rintro us rfl
  exact unmoved_of_toPostorder (marked_markConcat us) h

theorem toPostorder_conserves_grouped :
    ∃ ts out, markConcat [.openParen, .literal 'a', .union, .literal 'b', .star, .closeParen,
        .optional, .literal 'c'] = ts ∧
      toPostorder ts = .ok out ∧ out.Perm (withoutParens ts) ∧ unmoved out = unmoved ts ∧
      out = [.literal 'a', .literal 'b', .star, .union, .optional, .literal 'c', .concat] := by
  have hmark : markConcat [.openParen, .literal 'a', .union, .literal 'b', .star, .closeParen,
      .optional, .literal 'c'] =
      [.openParen, .literal 'a', .union, .literal 'b', .star, .closeParen, .optional, .concat,
        .literal 'c'] := rfl
  have hpost : toPostorder [.openParen, .literal 'a', .union, .literal 'b', .star, .closeParen,
      .optional, .concat, .literal 'c'] =
        .ok [.literal 'a', .literal 'b', .star, .union, .optional, .literal 'c', .concat] := by
    decide
  obtain ⟨hperm, -, -, hunmoved⟩ := toPostorder_conserves hpost
  exact ⟨_, _, hmark, hpost, hperm, hunmoved _ hmark, rfl⟩

-- Without a mark between them, a literal overtakes the quantifier before it.
example : toPostorder [.literal 'a', .star, .literal 'b', .optional] =
    .ok [.literal 'a', .literal 'b', .star, .optional] := by decide

end PatternAutomata
