import PatternAutomata.Expr

/-!
# The grammar of patterns

An expression is a union of terms, a term a concatenation of factors with or without a dot between
them, and a factor an atom with quantifiers behind it; an atom is a literal or an expression in
parentheses. `Derives level ts e` says that `ts` reads as `e`, where unions and concatenations group
to the left and quantifiers apply from the inside out. A pattern spells an expression when its
characters are those of such tokens and no literal uses a reserved character.
-/

namespace PatternAutomata

inductive Level where
  | expr
  | term
  | factor
  deriving DecidableEq, Repr

inductive Derives : Level → List Token → Expr → Prop
  | literal (c : Char) : Derives .factor [.literal c] (.literal c)
  | group {ts : List Token} {e : Expr} :
      Derives .expr ts e → Derives .factor (.openParen :: ts ++ [.closeParen]) e
  | star {ts : List Token} {e : Expr} :
      Derives .factor ts e → Derives .factor (ts ++ [.star]) (.star e)
  | optional {ts : List Token} {e : Expr} :
      Derives .factor ts e → Derives .factor (ts ++ [.optional]) (.optional e)
  | plus {ts : List Token} {e : Expr} :
      Derives .factor ts e → Derives .factor (ts ++ [.plus]) (.plus e)
  | factor {ts : List Token} {e : Expr} : Derives .factor ts e → Derives .term ts e
  | concat {ts us : List Token} {e f : Expr} :
      Derives .term ts e → Derives .factor us f → Derives .term (ts ++ .concat :: us) (.concat e f)
  | juxtaposed {ts us : List Token} {e f : Expr} :
      Derives .term ts e → Derives .factor us f → Derives .term (ts ++ us) (.concat e f)
  | term {ts : List Token} {e : Expr} : Derives .term ts e → Derives .expr ts e
  | union {ts us : List Token} {e f : Expr} :
      Derives .expr ts e → Derives .term us f → Derives .expr (ts ++ .union :: us) (.union e f)

def Spells (pattern : String) (e : Expr) : Prop :=
  ∃ ts, Derives .expr ts e ∧ (∀ c, .literal c ∈ ts → c ∉ reservedChars) ∧ render ts = pattern

def nested (n : Nat) : String := String.ofList (List.replicate n '(' ++ List.replicate n ')')

theorem Derives.ne_nil {level : Level} {ts : List Token} {e : Expr} (h : Derives level ts e) :
    ts ≠ [] := by
  induction h <;> simp_all

theorem tokenize_of_literals {ts : List Token} (h : ∀ c, .literal c ∈ ts → c ∉ reservedChars) :
    tokenize (render ts) = ts := by
  apply tokenize_render.2
  intro t ht
  cases t with
  | literal c => exact Token.ofChar_of_not_reserved (h c ht)
  | _ => rfl

theorem Spells.derives {pattern : String} {e : Expr} (h : Spells pattern e) :
    Derives .expr (tokenize pattern) e := by
  obtain ⟨ts, hts, hc, rfl⟩ := h
  rwa [tokenize_of_literals hc]

end PatternAutomata
