import PatternAutomata.Nfa.Walk

/-!
# Walking by recursion

The same search without a stack of tasks. A branch is handed what it carries, so nothing has to be taken
back when it ends, and the alternatives of a group are explored in their order. Only what was found is
passed from one branch to the next.
-/

namespace PatternAutomata.Nfa

/-- Where a branch is. -/
inductive Point where
  | before (id : NodeId)
  /-- The node has matched. -/
  | after (id : NodeId)

/-- What a branch carries with it; the lists have the last item first. -/
structure Carried where
  path : List PathElement := []
  guard : Guard := {}
  spawned : List NodeId := []

/-- What all branches so far have found. -/
structure Findings where
  /-- The last route first. -/
  routes : List Route := []
  /-- How many nodes have been entered. -/
  work : Nat

namespace Carried

def push (e : PathElement) (c : Carried) : Carried := { c with path := e :: c.path }

def under (g : Guard) (c : Carried) : Carried := { c with guard := c.guard.union g }

def spawn (look : NodeId) (c : Carried) : Carried := { c with spawned := look :: c.spawned }

/-- Whether an iteration that could have been skipped has begun on the branch. -/
def hasBegun (n : Nfa) (group : NodeId) (c : Carried) : Bool :=
  (n.tree.group? group).any fun g =>
    g.isQuantifier && g.alternatives.any (fun a => (n.tree.terms a).isEmpty) &&
      c.path.contains (.enter group)

/-- The route of the branch, if it ends here. -/
def route (n : Nfa) (goal : Goal) (c : Carried) : Route where
  goal := goal
  guard := c.guard
  boundaries := Walk.boundaries n.tree c.path
  spawned := c.spawned.reverse

end Carried

namespace Findings

/-- Adds a route, unless there is one to the same goal under the same conditions. -/
def add (r : Route) (f : Findings) : Findings :=
  if f.routes.any fun r' => r'.goal = r.goal && r'.guard = r.guard && r'.spawned = r.spawned then f
  else { f with routes := r :: f.routes }

end Findings

/-- The guard that an assertion comes to, if it can hold. -/
def assertionGuard? (n : Nfa) (context : Context) (a : Assertion) : Option Guard :=
  match a with
  | .atStart =>
    if context.atStart || n.multiline && Walk.holds context n.lookBehinds.lineTerminator then some {}
    else none
  | .atEnd => some (if n.multiline then { nextLineEnd := true } else { nextEnd := true })
  | .wordBoundary =>
    some (if Walk.holds context n.lookBehinds.word then { nextNotWord := true }
      else { nextWord := true })
  | .notWordBoundary =>
    some (if Walk.holds context n.lookBehinds.word then { nextWord := true }
      else { nextNotWord := true })

/-- Where a branch goes after an alternative of a group. -/
def afterAlternative (n : Nfa) (group : NodeId) : Point :=
  if (n.tree.group? group).any Group.isLoop then .before group else .after group

/-- How a branch goes on from a point. -/
abbrev Explorer := Point → Carried → Findings → Except Bailout Findings

section Explore

variable (n : Nfa) (context : Context) (go : Explorer)

/-- Explores an alternative of a group. -/
def exploreAlternative (id : NodeId) (g : Group) (c : Carried) (f : Findings) (alternative : NodeId) :
    Except Bailout Findings :=
  match n.tree.terms alternative with
  | first :: _ => go (.before first) (c.push (.enter id)) f
  | [] =>
    if g.isQuantifier then go (.after id) (c.push (.pass id)) f
    else go (n.afterAlternative id) ((c.push (.enter id)).push (.exit id)) f

/-- Explores what begins with a node, and counts it. -/
def exploreBefore (id : NodeId) (c : Carried) (f : Findings) : Except Bailout Findings :=
  if f.work < n.workLimit then
    let f := { f with work := f.work + 1 }
    match n.tree.kind id with
    | .charClass _ => .ok (f.add (c.route n (.consume id)))
    | .matchFound => .ok (f.add (c.route n .done))
    | .assertion a =>
      match n.assertionGuard? context a with
      | some guard => go (.after id) (c.under guard) f
      | none => .ok f
    | .look l =>
      match l.direction with
      | .ahead => go (.after id) (c.spawn id) f
      | .behind =>
        if Walk.holds context (n.lookBehinds.entry? id) = l.negated then .ok f else go (.after id) c f
    | .group g => g.alternatives.foldlM (exploreAlternative n go id g c) f
    | .backReference _ | .sequence _ => .ok f
  else .error tooLarge

/-- Explores what follows a node. -/
def exploreAfter (id : NodeId) (c : Carried) (f : Findings) : Except Bailout Findings :=
  match n.tree.parent id with
  | none => go (.before n.tree.matchFound) c f
  | some parent =>
    match n.tree.kind parent with
    | .sequence terms =>
      match n.tree.parent parent with
      | none => .ok f
      | some group =>
        let index := (n.tree.place id).index
        if index = 0 && c.hasBegun n group then .ok f
        else match terms[index + 1]? with
          | some next => go (.before next) c f
          | none => go (n.afterAlternative group) (c.push (.exit group)) f
    | .look l => go (.before l.matchFound) c f
    | _ => .ok f

end Explore

/-- Explores all branches from a point. Branches are at most `depth` points long. -/
def explore (n : Nfa) (context : Context) : Nat → Explorer
  | 0, _, _, _ => .error tooLarge
  | depth + 1, .before id, c, f => exploreBefore n context (explore n context depth) id c f
  | depth + 1, .after id, c, f => exploreAfter n (explore n context depth) id c f

end PatternAutomata.Nfa
