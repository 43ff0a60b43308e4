import PatternAutomata.Nfa.Walk

/-!
# Transitions of a state

The main pattern and each running look-ahead go their own ways in the tree, but they read the same
characters. A transition of a state combines one route of each of them, and one of each look-ahead
that begins to run on the way.
-/

namespace PatternAutomata.Nfa

/-- A combination of routes, some of which are yet to be chosen. -/
structure Combination where
  /-- The class that the main pattern consumes, unless it is done. -/
  main : Option NodeId
  /-- The classes that look-aheads consume, ascending. -/
  lookAheads : List NodeId := []
  /-- What all classes to consume have in common. -/
  cls : Option CodePointSet := none
  guard : Guard := {}
  boundaries : Boundaries := {}

/-- Inserts `a` into an ascending list, unless it is there. -/
def insertAscending (a : NodeId) : List NodeId → List NodeId
  | [] => [a]
  | b :: bs => if a < b then a :: b :: bs else if a = b then b :: bs else b :: insertAscending a bs

namespace Combination

/-- The common part with one more class. -/
def meet (cls : Option CodePointSet) (set : CodePointSet) : CodePointSet :=
  match cls with
  | some c => c.inter set
  | none => set

/-- Adds the conditions of a route. -/
def addRoute (n : Nfa) (c : Combination) (r : Route) : Combination where
  main := c.main
  lookAheads := c.lookAheads
  cls := match r.goal with
    | .done => c.cls
    | .consume id => match n.tree.kind id with
      | .charClass set => some (meet c.cls set)
      | _ => c.cls
  guard := c.guard.union r.guard
  boundaries := c.boundaries.merge r.boundaries

/-- The combination that begins with a route of the main pattern. -/
def ofMain (n : Nfa) (r : Route) : Combination :=
  let main := match r.goal with
    | .consume id => some id
    | .done => none
  addRoute n { main } r

/-- Adds a route of a look-ahead, if there are still characters to consume. -/
def addLookAhead? (n : Nfa) (c : Combination) (r : Route) : Option Combination :=
  let c := c.addRoute n r
  if c.cls.any CodePointSet.isEmpty then none
  else match r.goal with
    | .consume id => some { c with lookAheads := insertAscending id c.lookAheads }
    | .done => some c

/-- The transition of a complete combination. -/
def transition (n : Nfa) (c : Combination) : Transition :=
  let allowed := c.guard.allowed
  match c.main, c.lookAheads with
  | none, [] =>
    { target := .final
      cls := allowed
      acceptsEnd := c.guard.allowsEnd
      boundaries := c.boundaries }
  | main, lookAheads =>
    { target := .next (main.getD n.tree.matchFound) lookAheads
      cls := meet c.cls allowed
      acceptsEnd := false
      boundaries := c.boundaries }

end Combination

/-- The transitions found so far, the last one first, and the work done. -/
structure Found where
  transitions : List Transition := []
  work : Nat

/-- Adds a transition, unless it can never be taken or a better one does the same. -/
def Found.add (f : Found) (t : Transition) : Found :=
  if t.cls.isEmpty && !t.acceptsEnd then f
  else if f.transitions.any fun u =>
    u.target = t.target && u.cls = t.cls && u.acceptsEnd = t.acceptsEnd then f
  else { f with transitions := t :: f.transitions }

/-- The task that runs a look-ahead from its beginning. -/
def runTask (n : Nfa) (id : NodeId) : Task :=
  match n.tree.kind id with
  | .look l => .enter l.body
  | _ => .enter id

/-- Adds the transitions of all ways to complete `c` by a route from each of the tasks `todo` on. A
route takes work, so `fuel` is enough if it exceeds the work that is left by two. -/
def complete (n : Nfa) (context : Context) :
    Nat → Combination → List Task → Found → Except Bailout Found
  | 0, _, _, _ => .error tooLarge
  | _ + 1, c, [], f => .ok (f.add (c.transition n))
  | fuel + 1, c, task :: todo, f => do
    let (routes, work) ← n.routes context task f.work
    routes.foldlM (fun f r =>
      match c.addLookAhead? n r with
      | some c => complete n context fuel c (todo ++ r.spawned.map (runTask n)) f
      | none => .ok f) { f with work }

/-- The routes of the main pattern from a state on, and the work done. -/
def mainRoutes (n : Nfa) (s : State) : Except Bailout (List Route × Nat) :=
  match n.tree.kind s.main with
  | .matchFound => .ok ([{ goal := .done }], 0)
  | .charClass _ => n.routes s.context (.leave s.main) 0
  | _ => n.routes s.context (.enter s.main) 0

/-- The transitions of a state, the preferred ones first. -/
def transitions (n : Nfa) (s : State) : Except Bailout (List Transition) := do
  let (routes, work) ← n.mainRoutes s
  let found ← routes.foldlM (fun f r =>
    let todo := s.lookAheads.map Task.leave ++ r.spawned.map (runTask n)
    complete n s.context (n.workLimit + 2) (.ofMain n r) todo f) { work }
  return found.transitions.reverse

end PatternAutomata.Nfa
