import PatternAutomata.Dfa.Basic

/-!
# Searching with an automaton

A search reads the input character by character and keeps the captures of all threads. Whenever a
thread matches, its captures become the best so far; they stand until a preferred thread matches or
no thread is left.
-/

namespace PatternAutomata

/-- Captures in which no group is set. -/
def Captures.unset (groups : Nat) : Captures := Array.replicate (2 * groups) none

namespace Dfa

/-- The captures of all threads, by slot. -/
abbrev Slots := Array Captures

variable (d : Dfa)

def slot (slots : Slots) (i : Nat) : Captures := slots.getD i (.unset d.groups)

/-- Applies the boundaries with number `i`. -/
def applyBoundaries (i : Nat) (captures : Captures) (position : Nat) : Captures :=
  (d.boundaries.getD i .empty).apply captures position

/-- The captures of a match that is found at `position`. -/
def resolve (a : Accept) (slots : Slots) (position : Nat) : Captures :=
  match a with
  | .slot origin b => d.applyBoundaries b (d.slot slots origin) position
  | .result i =>
    match d.results with
    | some results => (results.getD i #[]).resolve position
    | none => .unset d.groups

/-- The slots after a transition at `position`. -/
def moveSlots (updates : List SlotUpdate) (slots : Slots) (position : Nat) : Slots :=
  (updates.map fun u =>
    let captures := u.origin.elim (Captures.unset d.groups) (d.slot slots)
    d.applyBoundaries u.boundaries captures position).toArray

/-- Goes on from `id` at `position` over the rest of the input. -/
def scan (id : StateId) (slots : Slots) (position : Nat) (best : Option Captures) :
    List Char → Option Captures
  | [] =>
    match (d.state id).endAccept with
    | some a => some (d.resolve a slots position)
    | none => best
  | c :: rest =>
    match (d.state id).transition? c.toNat with
    | none => best
    | some t =>
      let best := match t.accept with
        | some a => some (d.resolve a slots position)
        | none => best
      if t.target = dead then best
      else scan t.target (d.moveSlots t.updates slots position) (position + 1) best rest

/-- The state in which a search starts after the characters `before`, of which those matter that
are closest. -/
def startState (before : List Char) : StateId :=
  if before.isEmpty then d.rootStart
  else
    let read (id : StateId) (c : Char) : StateId :=
      ((d.state id).transition? c.toNat).elim id Transition.target
    let id := (before.drop (before.length - d.leadLength)).foldl read d.rootMid
    (d.state id).entry.getD id

/-- The captures of the first match from `start` on. -/
def search (input : List Char) (start : Nat) : Option Captures :=
  if start ≤ input.length then
    d.scan (d.startState (input.take start)) #[.unset d.groups] start none (input.drop start)
  else none

end Dfa

end PatternAutomata
