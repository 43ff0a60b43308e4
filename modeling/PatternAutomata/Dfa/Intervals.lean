import PatternAutomata.Ascending
import PatternAutomata.Dfa.Basic

/-!
# Splitting the code points

The code points are cut wherever a class that matters begins or ends. All characters of one of the
intervals behave alike, and neighbouring intervals that lead to the same are joined again.
-/

namespace PatternAutomata.Dfa

/-- Where a set begins and where it ends. -/
def cuts (s : CodePointSet) : List Nat := s.ranges.flatMap fun r => [r.lo, r.hi + 1]

/-- The interval from `lo` to before the next of the points. -/
def intervalFrom (lo : Nat) (later : List Nat) : CodePointRange :=
  .between lo (later.head?.elim maxCodePoint fun next => min (next - 1) maxCodePoint)

/-- The intervals that begin at ascending points, up to `maxCodePoint`. -/
def intervals : List Nat → List CodePointRange
  | [] => []
  | lo :: later =>
    if lo ≤ maxCodePoint then intervalFrom lo later :: intervals later else intervals later

/-- Adds a transition to those before it, which have the last one first. Joins the two if they only
differ in their ranges and these touch. -/
def Transition.joinTo (t : Transition) : List Transition → List Transition
  | [] => [t]
  | last :: before =>
    if last.range.hi + 1 = t.range.lo ∧ last.target = t.target ∧ last.updates = t.updates ∧
        last.accept = t.accept then
      { t with range := last.range.span t.range } :: before
    else t :: last :: before

end PatternAutomata.Dfa
