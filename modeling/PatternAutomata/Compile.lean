import PatternAutomata.Dfa.Builder
import PatternAutomata.Dfa.Reducible
import PatternAutomata.Matcher
import PatternAutomata.Pattern.Reader

/-!
# Compiling patterns

A pattern is read into a tree, and a deterministic automaton is built from it. Tracing the captures
and splitting loops are refinements: if one of them exceeds its own limits, the automaton is built
or left without it.
-/

namespace PatternAutomata

/-- The automaton with traces, if it is wanted, possible and within its limits, and the states that
were discovered. -/
def traced? {n : Nfa} (states : Nfa.States n) (sticky : Bool) (budget : Budget) :
    Except Bailout (Option Dfa) × Nfa.States n :=
  if budget.traceCaptures && n.tree.isLoopFree then
    match Dfa.tracing states sticky budget with
    | (.ok d, states) => (.ok (some d), states)
    | (.error b, states) => (if b.stage = .traceFinder then .ok none else .error b, states)
  else (.ok none, states)

/-- The deterministic automaton of a tree, before its loops are split. -/
def determinize (n : Nfa) (sticky : Bool) (budget : Budget) : Except Bailout Dfa :=
  match traced? (n := n) .empty sticky budget with
  | (.ok (some d), _) => .ok d
  | (.ok none, states) => (Dfa.tracking states sticky budget).1
  | (.error b, _) => .error b

/-- Splits the loops, if that is wanted and within its limits. -/
def splitIfPossible (d : Dfa) (budget : Budget) : Dfa :=
  if budget.splitNodes then ((d.splitLoops budget.maxSplitDfaSize).toOption).getD d else d

/-- The automaton of a tree. -/
def automaton (t : Tree) (flags : Flags) (budget : Budget) : Except Bailout Dfa := do
  let n ← Nfa.ofTree t flags.multiline budget.maxNfaSize
  return splitIfPossible (← determinize n flags.sticky budget) budget

/-- Compiles a pattern within a budget, which is clamped first. -/
def compile (pattern : String) (flags : Flags) (budget : Budget)
    (properties : PropertyLookup) : Except CompileError Matcher := do
  let budget := budget.clamp
  let t ← Pattern.parse pattern flags budget properties
  match automaton t flags budget with
  | .ok dfa => return { pattern, flags, dfa, groupNames := t.groupNames }
  | .error b => throw (.bailout b)

/-- Compiles a pattern with flags that are written as text, under the default budget. -/
def compileWithFlags (pattern flags : String) : Except CompileError Matcher :=
  match Flags.parse flags with
  | .ok flags => compile pattern flags {} Property.standard
  | .error e => .error (.flags e)

end PatternAutomata
