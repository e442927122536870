import PatternAutomata.Proofs.Complaints
import PatternAutomata.Proofs.Layout

/-!
# Quantifiers without a rule

The grammar has two quantifiers that no construction rule belongs to. In a pattern of the grammar
every operator has its operands, so building can stop at such a quantifier only, and it stops at the
first one in postorder. Postorder moves bars and dots behind later quantifiers but keeps the
quantifiers themselves in the order in which they are written, so the first one is the leftmost one
of the pattern.
-/

namespace PatternAutomata

def quantifiers (ts : List Token) : List Token := ts.filter Token.isQuantifier

theorem quantifiers_append (ts us : List Token) :
    quantifiers (ts ++ us) = quantifiers ts ++ quantifiers us :=
  List.filter_append ts us

theorem quantifiers_cons {t : Token} (ht : t.isQuantifier = false) (ts : List Token) :
    quantifiers (t :: ts) = quantifiers ts :=
  List.filter_cons_of_neg (by simp [ht])

theorem quantifiers_last {t : Token} (ht : t.isQuantifier = false) (ts : List Token) :
    quantifiers (ts ++ [t]) = quantifiers ts := by
  rw [quantifiers_append, quantifiers_cons ht]
  exact List.append_nil _

theorem Derives.quantifiers_postorder {level : Level} {ts : List Token} {e : Expr}
    (h : Derives level ts e) : quantifiers e.postorder = quantifiers ts := by
  induction h with
  | literal c => rfl
  | group h ih => rw [quantifiers_last rfl, quantifiers_cons rfl, ih]
  | star h ih | optional h ih | plus h ih =>
    rw [Expr.postorder, quantifiers_append, ih, quantifiers_append]
  | factor h ih | term h ih => exact ih
  | concat ht hu iht ihu | union ht hu iht ihu =>
    rw [Expr.postorder, quantifiers_last rfl, quantifiers_append, iht, ihu, quantifiers_append,
      quantifiers_cons rfl]
  | juxtaposed ht hu iht ihu =>
    rw [Expr.postorder, quantifiers_last rfl, quantifiers_append, iht, ihu, quantifiers_append]

theorem find?_quantifiers (ts : List Token) :
    (quantifiers ts).find? Token.isUnsupported = ts.find? Token.isUnsupported := by
  rw [quantifiers, List.find?_filter]
  congr 1
  funext t
  cases t <;> rfl

theorem Derives.find?_postorder {level : Level} {ts : List Token} {e : Expr}
    (h : Derives level ts e) :
    e.postorder.find? Token.isUnsupported = ts.find? Token.isUnsupported := by
  rw [← find?_quantifiers, h.quantifiers_postorder, find?_quantifiers]

theorem Expr.constructible_of_find? {e : Expr}
    (h : e.postorder.find? Token.isUnsupported = none) : e.constructible = true := by
  simpa [constructible_iff] using h

namespace Builder

/-- On top of any stack, `ts` is built up to the quantifier `t`. -/
def StopsAt (t : Token) (ts : List Token) : Prop :=
  ∀ stack, ts.foldlM apply (ofExprs stack) = .error (.compile (.unsupportedOperator t.toChar))

variable {t : Token} {ts : List Token}

theorem stopsAt_singleton (ht : t.isUnsupported = true) : StopsAt t [t] := by
  intro stack
  cases t with
  | optional | plus => rfl
  | literal c | concat | union | star | openParen | closeParen => cases ht

theorem StopsAt.append (h : StopsAt t ts) (us : List Token) : StopsAt t (ts ++ us) := by
  intro stack
  rw [List.foldlM_append, h stack]
  rfl

theorem StopsAt.behind (h : StopsAt t ts) {e : Expr}
    (he : e.postorder.find? Token.isUnsupported = none) : StopsAt t (e.postorder ++ ts) := by
  intro stack
  have hpush := Expr.foldlM_push_postorder (Expr.constructible_of_find? he) stack
  rw [List.foldlM_append, foldlM_apply_of_some hpush]
  exact h (e :: stack)

theorem stopsAt_postorder {e : Expr} (h : e.postorder.find? Token.isUnsupported = some t) :
    StopsAt t e.postorder := by
  induction e with
  | literal c => cases h
  | concat e f ihe ihf | union e f ihe ihf =>
    rw [Expr.postorder, List.find?_append, List.find?_append, Option.or_eq_some_iff,
      Option.or_eq_some_iff] at h
    -- it stands in the left operand, or in the right one, which is built on top of the left one
    rcases h with (he | ⟨he, hf⟩) | ⟨-, hop⟩
    · exact ((ihe he).append _).append _
    · exact ((ihf hf).behind he).append _
    · cases hop
  | star e ih =>
    rw [Expr.postorder, List.find?_append, Option.or_eq_some_iff] at h
    rcases h with he | ⟨-, hop⟩
    · exact (ih he).append _
    · cases hop
  | optional e ih | plus e ih =>
    rw [Expr.postorder, List.find?_append, Option.or_eq_some_iff] at h
    rcases h with he | ⟨he, hop⟩
    · exact (ih he).append _
    · obtain rfl := Option.some.inj hop
      exact (stopsAt_singleton rfl).behind he

end Builder

theorem Automaton.ofPostorder_of_unsupported {e : Expr} {t : Token}
    (h : e.postorder.find? Token.isUnsupported = some t) :
    ofPostorder e.postorder = .error (.compile (.unsupportedOperator t.toChar)) := by
  have hstop := Builder.stopsAt_postorder h []
  rw [Builder.ofExprs_nil] at hstop
  exact ofPostorder_of_foldlM_eq_error hstop

theorem Token.isUnsupported_ofChar (c : Char) :
    (ofChar c).isUnsupported = (c == '?' || c == '+') := by
  unfold ofChar
  split <;> simp_all [isUnsupported]

theorem find?_tokenize (text : String) :
    (tokenize text).find? Token.isUnsupported =
      (text.toList.find? fun c => c == '?' || c == '+').map Token.ofChar := by
  rw [tokenize, List.find?_map]
  congr 2
  funext c
  exact Token.isUnsupported_ofChar c

/-- A pattern of the grammar in which an unsupported quantifier occurs is refused because of the
leftmost one. -/
theorem compile_names_leftmost {text : String} {e : Expr} (h : Spells text e)
    (hq : '?' ∈ text.toList ∨ '+' ∈ text.toList) :
    ∃ c, text.toList.find? (fun c => c == '?' || c == '+') = some c ∧
      Automaton.ofPattern text = .error (.compile (.unsupportedOperator c)) ∧
      Pattern.compile text = .error (.compile (.unsupportedOperator c)) := by
  obtain ⟨c, hc⟩ : ∃ c, (text.toList.find? fun c => c == '?' || c == '+') = some c := by
    rw [← Option.isSome_iff_exists, List.find?_isSome]
    rcases hq with hq | hq
    · exact ⟨_, hq, rfl⟩
    · exact ⟨_, hq, rfl⟩
  have hfind := h.derives.find?_postorder
  rw [find?_tokenize, hc] at hfind
  have hbuild := Automaton.ofPostorder_of_unsupported hfind
  rw [← Automaton.ofPattern_of_parse h.parse_eq_ok, Token.toChar_ofChar] at hbuild
  exact ⟨c, hc, hbuild, Pattern.compile_eq_error_iff.2 hbuild⟩

theorem compile_names_leftmost_nested :
    Pattern.compile "(ab|c)*+d?" = .error (.compile (.unsupportedOperator '+')) := by
  have hab := Derives.juxtaposed (.factor (.literal 'a')) (.literal 'b')
  have halt := Derives.union (.term hab) (.factor (.literal 'c'))
  have hall := Derives.juxtaposed (.factor halt.group.star.plus) (Derives.literal 'd').optional
  have hspells : Spells "(ab|c)*+d?" _ :=
    ⟨_, hall.term, by simp [reservedChars, or_imp, forall_and], rfl⟩
  obtain ⟨c, hc, -, hcompile⟩ := compile_names_leftmost hspells (Or.inl (by decide))
  obtain rfl : '+' = c := Option.some.inj (Eq.trans rfl hc)
  exact hcompile

end PatternAutomata
