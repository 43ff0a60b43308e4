import PatternAutomata.Nfa.Basic

/-!
# Walking the tree

From a place in the tree a walk looks for every class that can be consumed next and for the end of
the match, the preferred ones first. It is a depth-first search whose pending work is a stack of
tasks. Along the way it keeps the groups entered and left, the guards on the next character and the
look-aheads met.
-/

namespace PatternAutomata.Nfa

/-- A group on the way, entered, passed by its empty alternative, or left. -/
inductive PathElement where
  | enter (group : NodeId)
  | pass (group : NodeId)
  | exit (group : NodeId)
deriving DecidableEq

/-- Where a walk can end. -/
inductive Goal where
  | consume (cls : NodeId)
  | done
deriving DecidableEq

/-- One way to get from the start of a walk to a goal. -/
structure Route where
  goal : Goal
  guard : Guard := {}
  boundaries : Boundaries := {}
  /-- Look-aheads that begin to run. -/
  spawned : List NodeId := []

inductive Task where
  | enter (id : NodeId)
  /-- Go on after the node, which has matched. -/
  | leave (id : NodeId)
  | finishAlternative (group : NodeId)
  | pushPath (e : PathElement)
  | popPath
  | popSpawned
  | setGuard (g : Guard)

/-- The state of a walk; all lists have the last item first, but `tasks` the next one. -/
structure Walk where
  path : List PathElement := []
  guard : Guard := {}
  spawned : List NodeId := []
  tasks : List Task
  routes : List Route := []
  /-- How many nodes have been entered. -/
  work : Nat

namespace Walk

/-- Does `tasks` before everything that is pending. -/
def andThen (w : Walk) (tasks : List Task) : Walk := { w with tasks := tasks ++ w.tasks }

/-! ## Captures -/

/-- What a path element does to the captures. -/
def stepBoundaries (t : Tree) (e : PathElement) (b : Boundaries) : Boundaries :=
  match e with
  | .pass _ => b
  | .enter id =>
    match t.group? id with
    | some g =>
      let b := if g.isQuantifier then b.clear g.innerStart g.innerEnd else b
      match g.number? with
      | some n => b.updateStart n
      | none => b
    | none => b
  | .exit id =>
    match (t.group? id).bind Group.number? with
    | some n => b.updateEnd n
    | none => b

/-- What a path, given with its last element first, does to the captures. -/
def boundaries (t : Tree) (path : List PathElement) : Boundaries :=
  path.foldr (stepBoundaries t) .empty

/-- Records the goal, unless it was reached before under the same conditions. -/
def emit (n : Nfa) (goal : Goal) (w : Walk) : Walk :=
  let spawned := w.spawned.reverse
  if w.routes.any fun r => r.goal = goal && r.guard = w.guard && r.spawned = spawned then w
  else
    let route := { goal, guard := w.guard, boundaries := boundaries n.tree w.path, spawned }
    { w with routes := route :: w.routes }

/-! ## Groups -/

/-- What entering `group` by one of its alternatives takes. -/
def enterAlternative (n : Nfa) (group : NodeId) (isQuantifier : Bool) (alternative : NodeId) :
    List Task :=
  match n.tree.terms alternative with
  | first :: _ => [.pushPath (.enter group), .enter first, .popPath]
  | [] =>
    if isQuantifier then [.pushPath (.pass group), .leave group, .popPath]
    else [.pushPath (.enter group), .finishAlternative group, .popPath]

/-- Goes on after an alternative of `group` has matched. -/
def finishAlternative (n : Nfa) (group : NodeId) (w : Walk) : Walk :=
  let next := if (n.tree.group? group).any Group.isLoop then .enter group else .leave group
  w.andThen [.pushPath (.exit group), next, .popPath]

/-- Whether an iteration that could have been skipped has begun on this walk, and so has consumed
nothing. -/
def isEmptyIteration (n : Nfa) (group : NodeId) (w : Walk) : Bool :=
  match n.tree.group? group with
  | some g =>
    g.isQuantifier && g.alternatives.any (fun a => (n.tree.terms a).isEmpty) &&
      w.path.contains (.enter group)
  | none => false

/-- Goes on after the node `id` has matched. -/
def leave (n : Nfa) (id : NodeId) (w : Walk) : Walk :=
  match n.tree.parent id with
  | none => w.andThen [.enter n.tree.matchFound]
  | some parent =>
    match n.tree.kind parent with
    | .sequence terms =>
      match n.tree.parent parent with
      | none => w
      | some group =>
        let index := (n.tree.place id).index
        if index = 0 && w.isEmptyIteration n group then w
        else match terms[index + 1]? with
          | some next => w.andThen [.enter next]
          | none => w.finishAlternative n group
    | .look l => w.andThen [.enter l.matchFound]
    | _ => w

/-! ## Assertions -/

/-- Whether an entry of the look-behind table holds. -/
def holds (context : Context) (entry : Option Nat) : Bool :=
  entry.any context.satisfied.contains

/-- Goes on after `id` under a further guard. -/
def guarded (id : NodeId) (g : Guard) (w : Walk) : Walk :=
  { w with guard := w.guard.union g }.andThen [.leave id, .setGuard w.guard]

def enterAssertion (n : Nfa) (context : Context) (id : NodeId) (a : Assertion) (w : Walk) : Walk :=
  match a with
  | .atStart =>
    if context.atStart || n.multiline && holds context n.lookBehinds.lineTerminator then
      w.andThen [.leave id]
    else w
  | .atEnd => w.guarded id (if n.multiline then { nextLineEnd := true } else { nextEnd := true })
  | .wordBoundary =>
    w.guarded id (if holds context n.lookBehinds.word then { nextNotWord := true }
      else { nextWord := true })
  | .notWordBoundary =>
    w.guarded id (if holds context n.lookBehinds.word then { nextWord := true }
      else { nextNotWord := true })

/-! ## Steps -/

def enterLook (n : Nfa) (context : Context) (id : NodeId) (l : LookAround) (w : Walk) : Walk :=
  match l.direction with
  | .ahead => { w with spawned := id :: w.spawned }.andThen [.leave id, .popSpawned]
  | .behind =>
    if holds context (n.lookBehinds.entry? id) = l.negated then w else w.andThen [.leave id]

/-- Enters a node. Sequences are entered through their group, and back-references were refused. -/
def enter (n : Nfa) (context : Context) (id : NodeId) (w : Walk) : Walk :=
  match n.tree.kind id with
  | .charClass _ => w.emit n (.consume id)
  | .matchFound => w.emit n .done
  | .assertion a => w.enterAssertion n context id a
  | .look l => w.enterLook n context id l
  | .group g => w.andThen (g.alternatives.flatMap (enterAlternative n id g.isQuantifier))
  | .backReference _ | .sequence _ => w

def step (n : Nfa) (context : Context) (task : Task) (w : Walk) : Except Bailout Walk :=
  match task with
  | .enter id =>
    if w.work < n.workLimit then .ok ({ w with work := w.work + 1 }.enter n context id)
    else .error tooLarge
  | .leave id => .ok (w.leave n id)
  | .finishAlternative group => .ok (w.finishAlternative n group)
  | .pushPath e => .ok { w with path := e :: w.path }
  | .popPath => .ok { w with path := w.path.tail }
  | .popSpawned => .ok { w with spawned := w.spawned.tail }
  | .setGuard guard => .ok { w with guard }

/-- Does all pending tasks, at most `fuel` of them. -/
def run (n : Nfa) (context : Context) : Nat → Walk → Except Bailout Walk
  | 0, w => if w.tasks.isEmpty then .ok w else .error tooLarge
  | fuel + 1, w =>
    match w.tasks with
    | [] => .ok w
    | task :: tasks => do run n context fuel (← step n context task { w with tasks })

/-- A bound on the number of tasks of a walk. Between two nodes entered, a walk only goes up in the
tree, once for each alternative that is pending. -/
def maxTasks (n : Nfa) : Nat := 4 * (n.tree.size + 2) * (n.tree.size + 2) * (n.workLimit + 2)

end Walk

/-- The routes from a task on, the preferred ones first, and the work done in the end. -/
def routes (n : Nfa) (context : Context) (start : Task) (work : Nat) :
    Except Bailout (List Route × Nat) := do
  let w ← Walk.run n context (Walk.maxTasks n) { tasks := [start], work }
  return (w.routes.reverse, w.work)

end PatternAutomata.Nfa
