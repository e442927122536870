import PatternAutomata.Token

/-!
# Juxtaposition made explicit

Writing two operands side by side concatenates them. `markConcat` puts a `concat` token at every
such place: between a token that can end an operand and a token that can begin one. An opening
parenthesis, a bar and a dot end nothing; a quantifier, a bar, a closing parenthesis and a dot begin
nothing. The sequence need not be well formed.
-/

namespace PatternAutomata

def Token.endsOperand : Token → Bool
  | .openParen | .union | .concat => false
  | _ => true

def Token.beginsOperand : Token → Bool
  | .literal _ | .openParen => true
  | _ => false

def juxtapose (t : Token) : List Token → List Token
  | [] => [t]
  | u :: rest =>
    if t.endsOperand && u.beginsOperand then t :: .concat :: u :: rest else t :: u :: rest

def markConcat (tokens : List Token) : List Token := tokens.foldr juxtapose []

@[simp] theorem markConcat_nil : markConcat [] = [] := rfl

@[simp] theorem markConcat_cons (t : Token) (tokens : List Token) :
    markConcat (t :: tokens) = juxtapose t (markConcat tokens) := rfl

theorem head?_juxtapose (t : Token) (tokens : List Token) :
    (juxtapose t tokens).head? = some t := by
  cases tokens with
  | nil => rfl
  | cons u rest => simp only [juxtapose]; split <;> rfl

theorem head?_markConcat (tokens : List Token) : (markConcat tokens).head? = tokens.head? := by
  cases tokens with
  | nil => rfl
  | cons t tokens => exact head?_juxtapose t _

end PatternAutomata
