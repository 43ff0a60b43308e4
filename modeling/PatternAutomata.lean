import PatternAutomata.Cache
import PatternAutomata.CodePoint.Editable
import PatternAutomata.CodePoint.Lazy
import PatternAutomata.Tree.Render
import PatternAutomata.Proofs.Matching
import PatternAutomata.Proofs.Dfa.Checked
import PatternAutomata.Proofs.Raising
import PatternAutomata.Proofs.IgnoringCase
import PatternAutomata.Proofs.Searching
import PatternAutomata.Proofs.Tracing
import PatternAutomata.Proofs.Dfa.FirstRun
import PatternAutomata.Proofs.Dfa.Alongside
import PatternAutomata.Proofs.Dfa.Reducible
import PatternAutomata.Proofs.Dfa.Lead
import PatternAutomata.Proofs.Dfa.Coherence
import PatternAutomata.Proofs.Dfa.ShortTraces
import PatternAutomata.Proofs.Dfa.Tables
import PatternAutomata.Proofs.Nfa.Raising
import PatternAutomata.Proofs.Nfa.Exploring
import PatternAutomata.Proofs.Nfa.FiniteWalks
import PatternAutomata.Proofs.Pattern.Kinds
import PatternAutomata.Proofs.Pattern.Limits
import PatternAutomata.Proofs.Pattern.Budgets
import PatternAutomata.Proofs.Pattern.Linked
import PatternAutomata.Proofs.Pattern.Progress
import PatternAutomata.Proofs.Pattern.Declared
import PatternAutomata.Proofs.Pattern.Repeating
import PatternAutomata.Proofs.Pattern.Rereading
import PatternAutomata.Proofs.Backtrack.Spans
import PatternAutomata.Proofs.Spans
import PatternAutomata.Proofs.Cache
import PatternAutomata.Proofs.LazySets
import PatternAutomata.Proofs.Edits
import PatternAutomata.Proofs.Trackers
import PatternAutomata.Proofs.Nfa.Gate
import PatternAutomata.Proofs.CaseFolding
import PatternAutomata.Proofs.RelativeCaptures
import PatternAutomata.Proofs.Tree.PostOrder
import PatternAutomata.Proofs.Dfa.RegionComponents
import PatternAutomata.Proofs.Nfa.Recursion
