import PatternAutomata.Dfa.Search
import PatternAutomata.Flags

/-!
# Compiled patterns and their matches
-/

namespace PatternAutomata

/-- What a search found: the positions of the groups, and the names of groups. -/
structure Match where
  captures : Captures
  groupNames : Array (Option String)

namespace Match

/-- The number of groups, the whole match included. -/
def groupCount (m : Match) : Nat := m.captures.size / 2

/-- Where a group matched, if it took part in the match. -/
def group? (m : Match) (g : Nat) : Option (Nat × Nat) :=
  match m.captures[2 * g]?.join, m.captures[2 * g + 1]?.join with
  | some start, some stop => some (start, stop)
  | _, _ => none

/-- Where the whole pattern matched. -/
def range? (m : Match) : Option (Nat × Nat) := m.group? 0

def groups (m : Match) : List (Option (Nat × Nat)) := (List.range m.groupCount).map m.group?

/-- Where the group with a name matched. -/
def named? (m : Match) (name : String) : Option (Nat × Nat) :=
  (m.groupNames.findIdx? (· == some name)).bind m.group?

end Match

/-- A compiled pattern. -/
structure Matcher where
  pattern : String
  flags : Flags
  dfa : Dfa
  groupNames : Array (Option String)
deriving Inhabited

namespace Matcher

/-- The first match that begins at `start` or later; if the pattern is sticky, exactly at `start`.
Positions count characters. -/
def execute (m : Matcher) (input : List Char) (start : Nat) : Option Match :=
  (m.dfa.search input start).map fun captures => { captures, groupNames := m.groupNames }

def captures (m : Matcher) (text : String) : Option Match := m.execute text.toList 0

def find (m : Matcher) (text : String) : Option (Nat × Nat) := (m.captures text).bind Match.range?

def isMatch (m : Matcher) (text : String) : Bool := (m.captures text).isSome

end Matcher

end PatternAutomata
