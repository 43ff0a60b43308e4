import PatternAutomata.CodePoint.Case
import PatternAutomata.CodePoint.Editable

/-!
# Sets that are put in normal form when they are asked

A `LazySet` takes ranges in any order. Adding to it only appends them, and it remembers whether its
ranges are known to be in normal form. Every query goes to the normal form, which is worked out unless
the ranges already are it.
-/

namespace PatternAutomata

structure LazySet where
  ranges : List CodePointRange := []
  normalized : Bool := true
  frozen : Bool := false

/-- What a hash is computed with. It takes the length of a list, and numbers. -/
structure Hasher (σ : Type) where
  writeLength : Nat → σ → σ
  write : Nat → σ → σ

namespace LazySet

open CodePointSet

/-- Whether each range ends before the next one begins, and does not touch it. -/
def isNormal : List CodePointRange → Bool
  | r :: s :: rs => r.hi + 1 < s.lo && isNormal (s :: rs)
  | _ => true

def ofRanges (rs : List CodePointRange) : LazySet := { ranges := rs, normalized := isNormal rs }

def ofSet (s : CodePointSet) : LazySet := { ranges := s.ranges }

def normalForm (s : LazySet) : List CodePointRange :=
  if s.normalized then s.ranges else coalesce (sortByStart s.ranges)

/-! ## Changes -/

/-- Appends ranges, unless the set is frozen. -/
def add (s : LazySet) (rs : List CodePointRange) : Except FrozenError Unit × LazySet :=
  if s.frozen then (.error .frozen, s)
  else (.ok (), { s with ranges := s.ranges ++ rs, normalized := false })

def addRange (s : LazySet) (r : CodePointRange) : Except FrozenError Unit × LazySet := s.add [r]

def addSet (s t : LazySet) : Except FrozenError Unit × LazySet := s.add t.normalForm

def normalize (s : LazySet) : LazySet := { s with ranges := s.normalForm, normalized := true }

def freeze (s : LazySet) : LazySet := { s.normalize with frozen := true }

/-! ## Queries -/

/-- Looks at the first range that does not end before `c`. -/
def contains (s : LazySet) (c : Nat) : Bool :=
  ((s.normalForm.dropWhile (·.hi < c)).head?).any (·.contains c)

def isEmpty (s : LazySet) : Bool := s.ranges.isEmpty

def isFull (s : LazySet) : Bool := s.normalForm = full.ranges

/-- Whether the set has exactly one member. -/
def isSingle (s : LazySet) : Bool :=
  match s.normalForm with
  | [r] => r.isSingle
  | _ => false

/-- Sets are compared by their normal forms. -/
instance : BEq LazySet := ⟨fun s t => s.normalForm == t.normalForm⟩

/-- The hash of the normal form: its length, and the ends of each range. -/
def hash {σ : Type} (h : Hasher σ) (s : LazySet) (state : σ) : σ :=
  s.normalForm.foldl (fun state r => h.write r.hi (h.write r.lo state))
    (h.writeLength s.normalForm.length state)

/-! ## New sets -/

def union (s t : LazySet) : LazySet :=
  { ranges := coalesce (sortByStart (s.normalForm ++ t.normalForm)) }

def inter (s t : LazySet) : LazySet := { ranges := overlaps s.normalForm t.normalForm }

def compl (s : LazySet) : LazySet := { ranges := gaps 0 s.normalForm }

def caseClosure (unicode : Bool) (s : LazySet) : LazySet :=
  ofSet ((CodePointSet.ofRanges s.normalForm).caseClosure unicode)

end LazySet

end PatternAutomata
