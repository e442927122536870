import PatternAutomata.Token

/-!
# Height

The height of a token sequence is the number of its literals less the number of its binary
operators. While a sequence is read in postorder, the height of the part already read is the number
of operands that wait; a token misfits when too few of them do or when it has no construction rule.
-/

namespace PatternAutomata

def Token.isBinary : Token → Bool
  | .union | .concat => true
  | _ => false

def height (tokens : List Token) : Int :=
  (tokens.countP Token.isLiteral : Int) - tokens.countP Token.isBinary

/-- Whether `t` can not be evaluated while `waiting` operands wait. -/
def Token.misfits (waiting : Int) : Token → Bool
  | .literal _ => false
  | .star => waiting = 0
  | .union | .concat => waiting < 2
  | .optional | .plus | .openParen | .closeParen => true

@[simp] theorem height_nil : height [] = 0 := rfl

theorem height_append (ts us : List Token) : height (ts ++ us) = height ts + height us := by
  simp only [height, List.countP_append]
  omega

theorem height_cons (t : Token) (ts : List Token) : height (t :: ts) = height [t] + height ts :=
  height_append [t] ts

end PatternAutomata
