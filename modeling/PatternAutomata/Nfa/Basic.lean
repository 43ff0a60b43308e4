import PatternAutomata.Captures.Boundaries
import PatternAutomata.Nfa.Guard
import PatternAutomata.Nfa.LookBehind

/-!
# The nondeterministic automaton of a tree

A state is a place in the tree: the character class that the pattern has just consumed. Look-aheads
that are still running have places of their own. A state also knows what can be observed about the
current position. Its transitions lead to the next classes, each with the characters that may be
consumed and with what happens to the captures.
-/

namespace PatternAutomata

/-- What a pattern can observe about a position in the input. -/
structure Context where
  /-- It is the start of the input. Kept only for patterns that ask for it. -/
  atStart : Bool
  /-- The entries of the look-behind table that hold there. -/
  satisfied : BitSet
deriving DecidableEq, Inhabited

instance : Coded Context := ⟨fun c => Coded.mix c.satisfied.mask c.atStart.toNat⟩

/-- A tree with what its states and transitions depend on besides. -/
structure Nfa where
  tree : Tree
  lookBehinds : LookBehindTable
  multiline : Bool
  /-- How many states there may be. -/
  maxStates : Nat
deriving Inhabited

namespace Nfa

/-- How many nodes may be entered to find the transitions of one state. -/
def workLimit (n : Nfa) : Nat := 64 * n.maxStates

/-- Whether the start of the input matters. -/
def usesStart (n : Nfa) : Bool := n.tree.usesAssertion .atStart

def groupCount (n : Nfa) : Nat := n.tree.groupCount

/-- The automaton of a tree, if automata can express all that the tree contains. -/
def ofTree (tree : Tree) (multiline : Bool) (maxStates : Nat) : Except Bailout Nfa := do
  let lookBehinds ← LookBehindTable.ofTree tree multiline
  return { tree, lookBehinds, multiline, maxStates }

/-- The bailout of a state that takes too much work, or of too many states. -/
def tooLarge : Bailout := Stage.nfa.exceeded .nfaSize

structure State where
  /-- The root before anything is consumed, then the class just consumed, and the end of the match
  once only look-aheads are left. -/
  main : NodeId
  /-- The classes just consumed by look-aheads, ascending. -/
  lookAheads : List NodeId
  context : Context
deriving DecidableEq, Inhabited

instance : Coded State := ⟨fun s =>
  Coded.mix (Coded.code s.lookAheads) (Coded.mix s.main (Coded.code s.context))⟩

inductive Target where
  /-- The whole pattern has matched. -/
  | final
  /-- One character is consumed. -/
  | next (main : NodeId) (lookAheads : List NodeId)
deriving DecidableEq

structure Transition where
  target : Target
  /-- What the next character must be. It is not consumed if the pattern has matched. -/
  cls : CodePointSet
  /-- Whether the pattern may also match at the end of the input. -/
  acceptsEnd : Bool
  boundaries : Boundaries

end Nfa

end PatternAutomata
