/-!
# Tokens of a pattern

Every character of a pattern is one token. Seven characters are operators or parentheses and all
others are literals, so a pattern and its tokens determine each other. A token sequence may also
hold a literal that is written like an operator; no pattern produces one.
-/

namespace PatternAutomata

inductive Token where
  | literal (c : Char)
  | concat
  | union
  | star
  | optional
  | plus
  | openParen
  | closeParen
  deriving DecidableEq, Repr, Inhabited

namespace Token

def ofChar : Char → Token
  | '.' => .concat
  | '|' => .union
  | '*' => .star
  | '?' => .optional
  | '+' => .plus
  | '(' => .openParen
  | ')' => .closeParen
  | c => .literal c

def toChar : Token → Char
  | .literal c => c
  | .concat => '.'
  | .union => '|'
  | .star => '*'
  | .optional => '?'
  | .plus => '+'
  | .openParen => '('
  | .closeParen => ')'

/-- How tightly an operator binds; literals and parentheses do not bind. -/
def precedence : Token → Option Nat
  | .union => some 0
  | .concat => some 1
  | .star | .optional | .plus => some 2
  | .literal _ | .openParen | .closeParen => none

def isQuantifier : Token → Bool
  | .star | .optional | .plus => true
  | _ => false

/-- A quantifier without a construction rule. -/
def isUnsupported : Token → Bool
  | .optional | .plus => true
  | _ => false

def isLiteral : Token → Bool
  | .literal _ => true
  | _ => false

def isParen : Token → Bool
  | .openParen | .closeParen => true
  | _ => false

@[simp] theorem toChar_ofChar (c : Char) : (ofChar c).toChar = c := by
  unfold ofChar
  split <;> rfl

end Token

/-- The characters with a meaning of their own in a pattern. -/
def reservedChars : List Char := ['.', '|', '*', '?', '+', '(', ')']

def tokenize (pattern : String) : List Token := pattern.toList.map Token.ofChar

def render (tokens : List Token) : String := String.ofList (tokens.map Token.toChar)

theorem Token.ofChar_of_not_reserved {c : Char} (h : c ∉ reservedChars) :
    Token.ofChar c = .literal c := by
  unfold Token.ofChar
  split <;> simp_all [reservedChars]

theorem Token.not_reserved_of_ofChar {c d : Char} (h : Token.ofChar d = .literal c) :
    c ∉ reservedChars := by
  have hd : d = c := by
    rw [← toChar_ofChar d, h]
    rfl
  subst hd
  intro hmem
  simp only [reservedChars, List.mem_cons, List.not_mem_nil, or_false] at hmem
  rcases hmem with hc | hc | hc | hc | hc | hc | hc <;> subst hc <;> cases h

theorem render_tokenize (pattern : String) : render (tokenize pattern) = pattern := by
  simp [render, tokenize, Function.comp_def]

theorem tokenize_render {tokens : List Token} :
    tokenize (render tokens) = tokens ↔ ∀ t ∈ tokens, Token.ofChar t.toChar = t := by
  simp only [tokenize, render, String.toList_ofList, List.map_map]
  induction tokens with
  | nil => simp
  | cons t tokens ih => simp [ih]

end PatternAutomata
