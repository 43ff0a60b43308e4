import PatternAutomata.Error
import PatternAutomata.Tree.Basic

/-!
# Growing a tree

A tree is grown node by node, children before their parents, up to a limit on the number of nodes.
-/

namespace PatternAutomata

/-- The nodes made so far, and how many there may be. -/
structure Arena where
  limit : Nat
  kinds : Array NodeKind := #[]
deriving Inhabited

/-- A computation that adds nodes. -/
abbrev Grow := StateT Arena (Except Bailout)

namespace Grow

/-- Adds a node and returns its number. -/
def add (kind : NodeKind) : Grow NodeId := fun a =>
  if a.kinds.size < a.limit then .ok (a.kinds.size, { a with kinds := a.kinds.push kind })
  else .error (Stage.parse.exceeded .treeSize)

def sequence (terms : List NodeId) : Grow NodeId := add (.sequence terms)

/-- Adds a look-around with the given body, after the node that ends it. -/
def look (direction : Direction) (negated : Bool) (body : NodeId) : Grow NodeId := do
  let matchFound ← add .matchFound
  add (.look { direction, negated, body, matchFound })

/-- Copies the subtree at `id`, children first. Any `fuel` that is not less than the number of nodes
on the longest way down will do. -/
def copyWithin : Nat → NodeId → Grow NodeId
  | 0, id => pure id
  | fuel + 1, id => do
    match (← get).kinds.getD id .matchFound with
    | .group g =>
      let alternatives ← g.alternatives.mapM (copyWithin fuel)
      add (.group { g with alternatives })
    | .sequence terms => sequence (← terms.mapM (copyWithin fuel))
    | .look l => look l.direction l.negated (← copyWithin fuel l.body)
    | kind => add kind

/-- Copies the subtree at `id` and returns the number of the copy. No way down meets a node twice,
so none is longer than the arena. -/
def copy (id : NodeId) : Grow NodeId := do copyWithin (← get).kinds.size id

end Grow

/-- The tree with the given root, finished with the node that ends a match. -/
def Arena.finish (a : Arena) (root : NodeId) (groupNames : Array (Option String)) :
    Except Bailout Tree := do
  let (matchFound, a) ← (Grow.add .matchFound).run a
  return { kinds := a.kinds, places := Tree.placesOf a.kinds, root, matchFound, groupNames }

end PatternAutomata
