import PatternAutomata.CodePoint.Set

/-!
# Sets that can be frozen

An `EditableSet` is a set of code points that takes further members until it is frozen.
-/

namespace PatternAutomata

structure EditableSet where
  set : CodePointSet
  frozen : Bool := false

/-- The refusal to change a frozen set. -/
inductive FrozenError where
  | frozen

def FrozenError.message : FrozenError → String
  | .frozen => "code point set is frozen"

namespace EditableSet

def freeze (s : EditableSet) : EditableSet := { s with frozen := true }

/-- Adds the members of `t`, unless the set is frozen. -/
def addSet (s : EditableSet) (t : CodePointSet) : Except FrozenError EditableSet :=
  if s.frozen then .error .frozen else .ok { s with set := s.set.union t }

def addRange (s : EditableSet) (r : CodePointRange) : Except FrozenError EditableSet :=
  s.addSet (.ofRange r)

end EditableSet

end PatternAutomata
