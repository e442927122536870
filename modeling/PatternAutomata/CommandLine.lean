import PatternAutomata.Automaton.Listing
import PatternAutomata.Automaton.Simulation
import PatternAutomata.Construction
import PatternAutomata.Text.Quoted

/-!
# The command line

The first argument is a pattern and the others are inputs. What is printed tells how far the pattern
came: a header, its postorder, its automaton, and one verdict for each input. The exit code is 0
when the pattern compiles, 1 when it does not, and 2 when there is none; the program aborts with 101
when it looks up a state that is missing.
-/

namespace PatternAutomata.CommandLine

structure Outcome where
  exitCode : UInt32
  stdout : String
  stderr : String
  deriving DecidableEq, Repr

def unlines (lines : List String) : String := String.join (lines.map (· ++ "\n"))

def usage : String := "usage: thompson_nfa_compiler <pattern> [input...]"

def header (pattern : String) : String := "=== Pattern: '" ++ pattern ++ "' ==="

def postorderLine (postorder : List Token) : String := "Postfix: " ++ render postorder

def automatonLines (m : Automaton) : List String :=
  ["Start state: " ++ toString m.start, "Accepting states: " ++ listIds m.acceptingIds, m.listing]

def verdict (m : Automaton) (input : String) : Except MissingState String :=
  return Text.quoteString input ++ ": " ++ (if ← m.isMatch input then "match" else "no match")

def fail (printed : List String) (problem : String) : Outcome :=
  ⟨1, unlines printed, unlines [problem]⟩

/-- A fault of the program itself. What was printed before stays, and of the report only the message
is kept. -/
def abort (printed : List String) (message : String) : Outcome :=
  ⟨101, unlines printed, unlines [message]⟩

/-- A verdict is printed before the next input is tried. -/
def report (m : Automaton) (printed : List String) : List String → Outcome
  | [] => ⟨0, unlines printed, ""⟩
  | input :: inputs =>
    match verdict m input with
    | .ok line => report m (printed ++ [line]) inputs
    | .error access => abort printed access.message

def runPattern (pattern : String) (inputs : List String) : Outcome :=
  match parse pattern with
  | .error cause => fail [header pattern] ("Failed to parse pattern: " ++ cause.message)
  | .ok postorder =>
    let printed := [header pattern, postorderLine postorder]
    match Automaton.ofPostorder postorder with
    | .error (.compile cause) => fail printed ("Failed to compile: " ++ cause.message)
    | .error e => abort printed e.message
    | .ok m => report m (printed ++ automatonLines m) inputs

def run : List String → Outcome
  | [] => ⟨2, "", unlines [usage]⟩
  | pattern :: inputs => runPattern pattern inputs

end PatternAutomata.CommandLine
