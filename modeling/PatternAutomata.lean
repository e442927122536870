import PatternAutomata.Automaton.DepthFirst
import PatternAutomata.Automaton.Path
import PatternAutomata.Automaton.Recipe
import PatternAutomata.Automaton.Script
import PatternAutomata.Description
import PatternAutomata.Expr.Evaluation
import PatternAutomata.Expr.Language
import PatternAutomata.Grammar
import PatternAutomata.Height
import PatternAutomata.Journal
import PatternAutomata.Main
import PatternAutomata.Proofs.Running
import PatternAutomata.Proofs.Wiring
import PatternAutomata.Proofs.Reading
import PatternAutomata.Proofs.Assembly
import PatternAutomata.Proofs.Building
import PatternAutomata.Proofs.Marking
import PatternAutomata.Proofs.Reordering
import PatternAutomata.Proofs.Balance
import PatternAutomata.Proofs.Compilation
import PatternAutomata.Proofs.Layout
import PatternAutomata.Proofs.Acceptance
import PatternAutomata.Proofs.Regrouping
import PatternAutomata.Proofs.Shape
import PatternAutomata.Proofs.Viability
import PatternAutomata.Proofs.Complaints
import PatternAutomata.Proofs.Accesses
import PatternAutomata.Proofs.Interleaving
import PatternAutomata.Proofs.Substitution
import PatternAutomata.Proofs.Delimiting
import PatternAutomata.Proofs.Listing
import PatternAutomata.Proofs.Preorder
import PatternAutomata.Proofs.Reporting
import PatternAutomata.Proofs.Parentheses
import PatternAutomata.Proofs.Rejection
import PatternAutomata.Proofs.Shortage
import PatternAutomata.Proofs.Quantifiers
import PatternAutomata.Proofs.Dotting
import PatternAutomata.Proofs.Conservation
import PatternAutomata.Proofs.Framing
import PatternAutomata.Proofs.Printing
import PatternAutomata.Proofs.Tiling
