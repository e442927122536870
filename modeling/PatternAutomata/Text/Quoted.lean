import PatternAutomata.Text.Unprintable

/-!
# Quoted text

Characters are quoted by apostrophes and strings by quotation marks. Inside, a backslash and the
delimiter are escaped by a backslash, as are NUL, tab, line feed and carriage return under their
letters; a character that is shown by number is written with its code point in hexadecimal.
-/

namespace PatternAutomata.Text

def byNumber (c : Char) : List Char :=
  ['\\', 'u', '\x7b'] ++ Nat.toDigits 16 c.toNat ++ ['\x7d']

def escape (delimiter c : Char) : List Char :=
  match c with
  | '\x00' => ['\\', '0']
  | '\t' => ['\\', 't']
  | '\n' => ['\\', 'n']
  | '\r' => ['\\', 'r']
  | '\\' => ['\\', '\\']
  | _ =>
    if c = delimiter then ['\\', c]
    else if isUnprintable c then byNumber c
    else [c]

def quote (delimiter : Char) (text : List Char) : String :=
  String.ofList (delimiter :: text.flatMap (escape delimiter) ++ [delimiter])

def quoteChar (c : Char) : String := quote '\x27' [c]

def quoteString (s : String) : String := quote '\x22' s.toList

end PatternAutomata.Text
