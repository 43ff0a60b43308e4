import PatternAutomata.Captures.Boundaries
import PatternAutomata.Error
import PatternAutomata.Interner

/-!
# Captures as distances back

While no group loops, a path through the automaton is short, and its captures can be kept as
distances back from the current position. Then the captures of a match are known when the automaton
is built: a `TraceFinder` numbers the arrays that occur, and a match names one of them.
-/

namespace PatternAutomata

/-- Distances from the starts and ends of groups to the current position. -/
abbrev RelativeCaptures := Array (Option Nat)

namespace RelativeCaptures

/-- The captures of a path that has not entered any group. -/
def fresh (groups : Nat) : RelativeCaptures := Array.replicate (2 * groups) none

/-- The captures after `b` at the current position. -/
def record (b : Boundaries) (captures : RelativeCaptures) : RelativeCaptures := b.apply captures 0

/-- Distances are kept in 32 bits, of which the largest value stands for an entry not set. -/
def maxDistance : Nat := 0xFFFFFFFE

/-- The distance after one more character. -/
def lengthen (distance : Nat) : Option Nat :=
  if distance < maxDistance then some (distance + 1) else none

/-- The captures after `b` and one character. -/
def advance (b : Boundaries) (captures : RelativeCaptures) : RelativeCaptures :=
  (captures.record b).map (·.bind lengthen)

/-- The positions that the distances name at `position`. -/
def resolve (captures : RelativeCaptures) (position : Nat) : Captures :=
  captures.map (·.map (position - ·))

end RelativeCaptures

/-- The capture arrays with which a match may end, at most `maxResults` of them. -/
structure TraceFinder where
  groups : Nat
  maxResults : Nat
  results : Interner RelativeCaptures
deriving Inhabited

namespace TraceFinder

/-- Results are numbered from zero through 254. -/
def maxCount : Nat := 255

def new (groups maxResults : Nat) : TraceFinder := ⟨groups, min maxResults maxCount, .empty⟩

def fresh (t : TraceFinder) : RelativeCaptures := .fresh t.groups

def size (t : TraceFinder) : Nat := t.results.size

/-- The number of the result of a path with `captures` that ends with `b`. -/
def result (t : TraceFinder) (captures : RelativeCaptures) (b : Boundaries) :
    Except Bailout (TraceFinder × Nat) :=
  let final := captures.record b
  match t.results.find? final with
  | some i => .ok (t, i)
  | none =>
    if t.size < t.maxResults then
      let (results, i) := t.results.intern final
      .ok ({ t with results }, i)
    else .error (Stage.traceFinder.exceeded .traceResults)

end TraceFinder

end PatternAutomata
