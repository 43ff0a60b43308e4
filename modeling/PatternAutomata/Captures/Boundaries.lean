import PatternAutomata.BitSet

/-!
# Boundaries of capture groups

What a path does to the captures: the starts and ends of groups that it sets, and those that it
resets. Of several operations on one entry the last one counts. A capture array holds the start of
group `g` at `2 * g` and its end at `2 * g + 1`; an entry that is not set is `none`.
-/

namespace PatternAutomata

/-- Positions at which groups start and end. -/
abbrev Captures := Array (Option Nat)

structure Boundaries where
  startUpdated : BitSet := ∅
  endUpdated : BitSet := ∅
  startCleared : BitSet := ∅
  endCleared : BitSet := ∅
deriving DecidableEq, Inhabited

instance : Coded Boundaries := ⟨fun b =>
  Coded.code [b.startUpdated, b.endUpdated, b.startCleared, b.endCleared]⟩

namespace Boundaries

def empty : Boundaries := {}

def isEmpty (b : Boundaries) : Bool :=
  b.startUpdated.isEmpty && b.endUpdated.isEmpty && b.startCleared.isEmpty && b.endCleared.isEmpty

/-- Then sets the start of group `g`. -/
def updateStart (b : Boundaries) (g : Nat) : Boundaries :=
  { b with startUpdated := b.startUpdated.insert g, startCleared := b.startCleared.erase g }

/-- Then sets the end of group `g`. -/
def updateEnd (b : Boundaries) (g : Nat) : Boundaries :=
  { b with endUpdated := b.endUpdated.insert g, endCleared := b.endCleared.erase g }

/-- Then resets the groups `lo, …, hi - 1`. -/
def clear (b : Boundaries) (lo hi : Nat) : Boundaries where
  startUpdated := b.startUpdated.sdiff (.ofRange lo hi)
  endUpdated := b.endUpdated.sdiff (.ofRange lo hi)
  startCleared := b.startCleared.union (.ofRange lo hi)
  endCleared := b.endCleared.union (.ofRange lo hi)

/-- The operations of `a`, then those of `b`. -/
def merge (a b : Boundaries) : Boundaries where
  startUpdated := (a.startUpdated.sdiff b.startCleared).union b.startUpdated
  endUpdated := (a.endUpdated.sdiff b.endCleared).union b.endUpdated
  startCleared := (a.startCleared.sdiff b.startUpdated).union b.startCleared
  endCleared := (a.endCleared.sdiff b.endUpdated).union b.endCleared

/-- Whether entry `i` of a capture array is set. -/
def updates (b : Boundaries) (i : Nat) : Bool :=
  if i % 2 = 0 then b.startUpdated.contains (i / 2) else b.endUpdated.contains (i / 2)

/-- Whether entry `i` of a capture array is reset. -/
def clears (b : Boundaries) (i : Nat) : Bool :=
  if i % 2 = 0 then b.startCleared.contains (i / 2) else b.endCleared.contains (i / 2)

/-- The captures after these operations at `position`. -/
def apply (b : Boundaries) (captures : Captures) (position : Nat) : Captures :=
  captures.mapIdx fun i entry =>
    if b.updates i then some position else if b.clears i then none else entry

end Boundaries

end PatternAutomata
