import PatternAutomata.Captures.Relative
import PatternAutomata.CodePoint.Set

/-!
# Deterministic automata that capture

A state stands for an ordered list of threads, the preferred one first. The captures of the threads
lie in numbered slots while the automaton runs, and a transition says for each slot of its target
where the captures come from and what happens to them. An automaton that was built with traces needs
no slots: its matches name one of finitely many results.
-/

namespace PatternAutomata

abbrev StateId := Nat

/-- Where the captures of a thread come from. -/
structure SlotUpdate where
  /-- The slot to copy from; without one, all groups are unset. -/
  origin : Option Nat
  /-- The number of the boundaries to apply at the current position. -/
  boundaries : Nat
deriving DecidableEq

/-- The captures of a match. -/
inductive Accept where
  /-- Those of a slot, with the boundaries of this number applied. -/
  | slot (origin boundaries : Nat)
  /-- The result with this number. -/
  | result (index : Nat)
deriving DecidableEq

namespace Dfa

/-- What happens on every character of a range. -/
structure Transition where
  range : CodePointRange
  target : StateId
  /-- One update for each slot of the target. -/
  updates : List SlotUpdate := []
  /-- The match that ends before the character. -/
  accept : Option Accept := none
deriving DecidableEq

structure State where
  /-- A state that has an entry only reads the characters before the start of a search, to look
  behind; the search then begins in the entry. -/
  entry : Option StateId := none
  slots : Nat := 0
  /-- Ascending, without overlap. -/
  transitions : List Transition := []
  /-- The match that ends at the end of the input. -/
  endAccept : Option Accept := none
deriving DecidableEq, Inhabited

/-- The state without threads. -/
def dead : StateId := 0

namespace State

/-- The transition on the character `c`. -/
def transition? (s : State) (c : Nat) : Option Transition :=
  s.transitions.find? (·.range.contains c)

/-- The states to which the state leads, its entry first. -/
def successors (s : State) : List StateId := s.entry.toList ++ s.transitions.map (·.target)

/-- The same state, with what it leads to renamed. -/
def mapSuccessors (s : State) (f : StateId → StateId) : State :=
  { s with
    entry := s.entry.map f
    transitions := s.transitions.map fun t => { t with target := f t.target } }

end State

end Dfa

structure Dfa where
  states : Array Dfa.State
  /-- Where a search from the start of the input begins. -/
  rootStart : StateId
  /-- Where to read the characters before the start of any other search. -/
  rootMid : StateId
  /-- How many characters before the start of a search matter. -/
  leadLength : Nat
  boundaries : Array Boundaries
  /-- The possible captures of a match, as distances back from its end, if they were traced. -/
  results : Option (Array RelativeCaptures)
  /-- The number of capture groups. -/
  groups : Nat
deriving Inhabited

namespace Dfa

def size (d : Dfa) : Nat := d.states.size

def isTraced (d : Dfa) : Bool := d.results.isSome

def state (d : Dfa) (i : StateId) : State := d.states.getD i {}

end Dfa

end PatternAutomata
