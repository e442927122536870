import PatternAutomata.Pattern
import PatternAutomata.Text.Quoted

/-!
# Descriptions

A description shows how a value is made up: the name of its kind and its data, with text quoted. It
is meant for diagnosis; `message` is the text for users.
-/

namespace PatternAutomata

def Unbalanced.describe : Unbalanced → String
  | .unclosed => "Open"
  | .unopened => "Close"

def CompileError.describe (cause : CompileError) : String :=
  cause.kind ++
    match cause with
    | .unbalancedParentheses side => "(" ++ side.describe ++ ")"
    | .unsupportedOperator c => "(" ++ Text.quoteChar c ++ ")"
    | .malformed n => " \x7b remaining: " ++ toString n ++ " \x7d"

def Error.describe (e : Error) : String :=
  e.kind ++
    match e with
    | .compile cause => "(" ++ cause.describe ++ ")"
    | .absentInput => ""
    | .missingState access => "(" ++ access.message ++ ")"

def Pattern.describe (p : Pattern) : String :=
  "Matcher \x7b pattern: Pattern(" ++ Text.quoteString p.text ++ ") \x7d"

end PatternAutomata
