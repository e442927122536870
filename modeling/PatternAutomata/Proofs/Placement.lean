import PatternAutomata.Proofs.Balance
import PatternAutomata.Proofs.Marking

/-!
# Where operands are due

After an opening parenthesis, a bar or a dot, and at the start, an operand is due; after every other
token one has just ended. A token is out of place when it needs an operand before it and one is
still due. Marks make up for operands that touch, but nothing makes up for a missing one: the height
of a marked sequence is one if an operand has ended last and zero if not, less the number of tokens
out of place. So height one leaves no token out of place. If the parentheses match too, reading from
left to right finds a derivation: before each open parenthesis stands what a factor can follow, and
each closed pair is such a factor.
-/

namespace PatternAutomata

/-- The number of tokens out of place, after an operand has `ended` or not. -/
def misplaced : Bool → List Token → Nat
  | _, [] => 0
  | ended, t :: ts => (! (ended || t.beginsOperand)).toNat + misplaced t.endsOperand ts

def endedAfter : Bool → List Token → Bool
  | ended, [] => ended
  | _, t :: ts => endedAfter t.endsOperand ts

theorem height_seam (t : Token) (ts : List Token) :
    height (seam [t] ts) = -(t.endsOperand && ts.head?.any Token.beginsOperand).toNat := by
  rw [seam, List.getLast?_singleton, Option.any_some]
  cases t.endsOperand && ts.head?.any Token.beginsOperand <;> rfl

theorem height_singleton (t : Token) (ended : Bool) :
    height [t] + (! (ended || t.beginsOperand)).toNat + ended.toNat =
      t.endsOperand.toNat + (ended && t.beginsOperand).toNat := by
  cases t <;> cases ended <;> rfl

theorem height_markConcat_add (ended : Bool) (ts : List Token) :
    height (markConcat ts) + misplaced ended ts + ended.toNat =
      (endedAfter ended ts).toNat + (ended && ts.head?.any Token.beginsOperand).toNat := by
  -- whether an operand has ended is general: the mark before the rest depends on the token read
  induction ts generalizing ended with
  | nil => simp [misplaced, endedAfter]
  | cons t ts ih =>
    have hrest := ih t.endsOperand
    have hseam := height_seam t (markConcat ts)
    have htoken := height_singleton t ended
    rw [head?_markConcat] at hseam
    rw [markConcat_cons, juxtapose_eq, height_cons, height_append, misplaced, endedAfter]
    rw [List.head?_cons, Option.any_some]
    push_cast
    omega

theorem misplaced_eq_zero_of_height {ts : List Token} (h : height (markConcat ts) = 1) :
    misplaced false ts = 0 ∧ endedAfter false ts = true := by
  have hsum := height_markConcat_add false ts
  have hle : (endedAfter false ts).toNat ≤ 1 := Bool.toNat_le _
  rw [h, Bool.false_and, Bool.toNat_false] at hsum
  have hended : (endedAfter false ts).toNat = 1 := by omega
  exact ⟨by omega, by simpa using hended⟩

def Phrase (ts : List Token) : Prop := ∃ e, Derives .expr ts e

/-- Any factor can follow. -/
def Leads (ts : List Token) : Prop := ∀ us f, Derives .factor us f → Phrase (ts ++ us)

namespace Phrase

variable {ts : List Token}

theorem of_factor {e : Expr} (h : Derives .factor ts e) : Phrase ts :=
  ⟨e, .term (.factor h)⟩

theorem leads (h : Phrase ts) : Leads ts := by
  intro us f hu
  obtain ⟨e, he⟩ := h
  cases he with
  | term ht => exact ⟨_, .term (.juxtaposed ht hu)⟩
  | union hl ht =>
    rw [List.append_assoc]
    exact ⟨_, .union hl (.juxtaposed ht hu)⟩

theorem leads_concat (h : Phrase ts) : Leads (ts ++ [.concat]) := by
  intro us f hu
  rw [List.append_assoc]
  obtain ⟨e, he⟩ := h
  cases he with
  | term ht => exact ⟨_, .term (.concat ht hu)⟩
  | union hl ht =>
    rw [List.append_assoc]
    exact ⟨_, .union hl (.concat ht hu)⟩

theorem leads_union (h : Phrase ts) : Leads (ts ++ [.union]) := by
  intro us f hu
  rw [List.append_assoc]
  obtain ⟨e, he⟩ := h
  exact ⟨_, .union he (.factor hu)⟩

end Phrase

theorem leads_nil : Leads [] := by
  intro us f hu
  exact .of_factor hu

theorem Leads.literal {ts : List Token} (h : Leads ts) (c : Char) : Phrase (ts ++ [.literal c]) :=
  h _ _ (.literal c)

theorem Leads.group {ts us : List Token} (h : Leads ts) (hu : Phrase us) :
    Phrase (ts ++ (.openParen :: us ++ [.closeParen])) := by
  obtain ⟨e, he⟩ := hu
  exact h _ _ (.group he)

theorem Derives.quantified {ts : List Token} {e : Expr} (h : Derives .factor ts e) {q : Token}
    (hq : q.isQuantifier = true) : ∃ f, Derives .factor (ts ++ [q]) f := by
  cases q with
  | star => exact ⟨_, h.star⟩
  | optional => exact ⟨_, h.optional⟩
  | plus => exact ⟨_, h.plus⟩
  | literal c | concat | union | openParen | closeParen => cases hq

theorem Derives.term_quantified {ts : List Token} {e : Expr} (h : Derives .term ts e) {q : Token}
    (hq : q.isQuantifier = true) : ∃ f, Derives .term (ts ++ [q]) f := by
  cases h with
  | factor h =>
    obtain ⟨f, hf⟩ := h.quantified hq
    exact ⟨f, hf.factor⟩
  | concat ht hu =>
    obtain ⟨f, hf⟩ := hu.quantified hq
    rw [List.append_assoc]
    exact ⟨_, .concat ht hf⟩
  | juxtaposed ht hu =>
    obtain ⟨f, hf⟩ := hu.quantified hq
    rw [List.append_assoc]
    exact ⟨_, .juxtaposed ht hf⟩

theorem Phrase.quantified {ts : List Token} (h : Phrase ts) {q : Token}
    (hq : q.isQuantifier = true) : Phrase (ts ++ [q]) := by
  obtain ⟨e, he⟩ := h
  cases he with
  | term ht =>
    obtain ⟨f, hf⟩ := ht.term_quantified hq
    exact ⟨f, hf.term⟩
  | union hl ht =>
    obtain ⟨f, hf⟩ := ht.term_quantified hq
    rw [List.append_assoc]
    exact ⟨_, .union hl hf⟩

/-- What has been read up to the innermost of `depth` open parentheses. -/
inductive Opened : Nat → List Token → Prop
  | outermost : Opened 0 []
  | inside {depth : Nat} {ts us : List Token} :
      Opened depth ts → Leads us → Opened (depth + 1) (ts ++ us ++ [.openParen])

def Continues : Bool → List Token → Prop
  | true, ts => Phrase ts
  | false, ts => Leads ts

theorem Continues.leads {ended : Bool} {ts : List Token} (h : Continues ended ts) : Leads ts := by
  cases ended with
  | true => exact Phrase.leads h
  | false => exact h

def Scanned (depth : Nat) (ended : Bool) (ts : List Token) : Prop :=
  ∃ outside us, Opened depth outside ∧ Continues ended us ∧ outside ++ us = ts

theorem Scanned.extend {depth : Nat} {ended : Bool} {outside us vs : List Token}
    (hout : Opened depth outside) (h : Continues ended (us ++ vs)) :
    Scanned depth ended (outside ++ us ++ vs) :=
  ⟨outside, us ++ vs, hout, h, (List.append_assoc _ _ _).symm⟩

theorem Scanned.step {depth depth' : Nat} {ended : Bool} {ts : List Token} {t : Token}
    (h : Scanned depth ended ts) (hd : depthAfter depth t = some depth')
    (ht : (ended || t.beginsOperand) = true) : Scanned depth' t.endsOperand (ts ++ [t]) := by
  obtain ⟨outside, us, hout, hus, hts⟩ := h
  subst hts
  have hleads : Leads us := hus.leads
  by_cases hb : t.beginsOperand = true
  · cases t with
    | literal c =>
      obtain rfl : depth = depth' := Option.some.inj hd
      exact .extend hout (hleads.literal c)
    | openParen =>
      obtain rfl : depth + 1 = depth' := Option.some.inj hd
      exact ⟨_, [], hout.inside hleads, leads_nil, List.append_nil _⟩
    | concat | union | star | optional | plus | closeParen => cases hb
  · have hended : ended = true := by simpa [hb] using ht
    subst hended
    have hphrase : Phrase us := hus
    cases t with
    | literal c | openParen => exact absurd rfl hb
    | concat =>
      obtain rfl : depth = depth' := Option.some.inj hd
      exact .extend hout hphrase.leads_concat
    | union =>
      obtain rfl : depth = depth' := Option.some.inj hd
      exact .extend hout hphrase.leads_union
    | star | optional | plus =>
      obtain rfl : depth = depth' := Option.some.inj hd
      exact .extend hout (hphrase.quantified rfl)
    | closeParen =>
      cases hout with
      | outermost => cases hd
      -- the pair becomes a factor behind what stood before its opening parenthesis
      | inside hout hbefore =>
        obtain rfl := Option.some.inj hd
        have hgroup := hbefore.group hphrase
        refine ⟨_, _, hout, hgroup, by simp⟩

theorem Scanned.run {depth depth' : Nat} {ended : Bool} {ts us : List Token}
    (h : Scanned depth ended ts) (hd : us.foldlM depthAfter depth = some depth')
    (hm : misplaced ended us = 0) : Scanned depth' (endedAfter ended us) (ts ++ us) := by
  induction us generalizing depth ended ts with
  | nil =>
    obtain rfl : depth = depth' := Option.some.inj hd
    rw [List.append_nil]
    exact h
  | cons t us ih =>
    obtain ⟨d, ht, hrest⟩ := Option.bind_eq_some_iff.1 hd
    rw [misplaced] at hm
    have hplace : (ended || t.beginsOperand) = true := by
      cases hp : ended || t.beginsOperand with
      | true => rfl
      | false => simp [hp] at hm
    have hzero : misplaced t.endsOperand us = 0 := by omega
    have hnext := ih (h.step ht hplace) hrest hzero
    rw [List.append_assoc] at hnext
    exact hnext

theorem foldlM_depthAfter_markConcat (depth : Nat) (ts : List Token) :
    (markConcat ts).foldlM depthAfter depth = ts.foldlM depthAfter depth := by
  induction ts generalizing depth with
  | nil => rfl
  | cons t ts ih =>
    rw [markConcat_cons, juxtapose_eq, List.foldlM_cons, List.foldlM_cons]
    cases depthAfter depth t with
    | none => rfl
    | some d =>
      have hseam : (seam [t] (markConcat ts)).foldlM depthAfter d = some d := by
        rw [seam]
        split <;> rfl
      change (seam [t] (markConcat ts) ++ markConcat ts).foldlM depthAfter d =
        ts.foldlM depthAfter d
      rw [List.foldlM_append, hseam]
      exact ih d

/-- A marked sequence of height one whose parentheses match comes from a phrase. -/
theorem phrase_of_height {ts : List Token} (hheight : height (markConcat ts) = 1)
    (hd : ts.foldlM depthAfter 0 = some 0) : Phrase ts := by
  obtain ⟨hm, hended⟩ := misplaced_eq_zero_of_height hheight
  have hstart : Scanned 0 false [] := ⟨[], [], .outermost, leads_nil, rfl⟩
  obtain ⟨outside, us, hout, hphrase, hts⟩ := hstart.run hd hm
  rw [hended] at hphrase
  cases hout with
  | outermost =>
    rw [List.nil_append, List.nil_append] at hts
    rw [← hts]
    exact hphrase

end PatternAutomata
