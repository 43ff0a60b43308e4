import PatternAutomata.Dfa.Basic
import PatternAutomata.Error
import PatternAutomata.Graph.Components

/-!
# Loops with a single entry

A loop that can be entered at several states is copied, once for each further entry, and the edges
from outside into that entry are moved to the copy. Then the same is done inside each loop without
the state where it is entered, until every loop has one entry. What a state does depends only on
the state itself, so a copy of it does the same.

Each pass copies all loops with several entries that it finds. Those found in one pass are disjoint,
so the entries of one stay the same while others are copied.
-/

namespace PatternAutomata.Dfa

/-- An automaton whose loops are being copied. -/
structure Splitting where
  states : Array State
  rootStart : StateId
  rootMid : StateId
  /-- States and edges visited, over all passes. -/
  work : Nat := 0
deriving Inhabited

namespace Splitting

def tooLarge : Bailout := Stage.nodeSplitter.exceeded .splitDfaSize

def size (s : Splitting) : Nat := s.states.size

/-- How much work there may be for automata of at most `maxStates` states. -/
def workLimit (maxStates : Nat) : Nat := 256 * maxStates

def charge (maxStates work : Nat) (s : Splitting) : Except Bailout Splitting :=
  if s.work + work ≤ workLimit maxStates then .ok { s with work := s.work + work }
  else .error tooLarge

def graph (s : Splitting) : Graph := s.states.map State.successors

/-- The work of a look at every state and every transition. -/
def fullWork (s : Splitting) : Nat :=
  s.states.foldl (fun n state => n + state.transitions.length + 1) 0

def isRoot (s : Splitting) (id : StateId) : Bool := id == s.rootStart || id == s.rootMid

/-- Leads everywhere that `f` says, instead of where it led. -/
def redirectRoots (s : Splitting) (f : StateId → StateId) : Splitting :=
  { s with rootStart := f s.rootStart, rootMid := f s.rootMid }

/-- Which of `n` vertices are in `vs`. -/
def flags (n : Nat) (vs : List Nat) : Array Bool :=
  vs.foldl (fun a v => a.setIfInBounds v true) (Array.replicate n false)

/-! ## Copying a loop -/

/-- Numbers the states of the loop from `base` on, and leaves all others as they are. -/
def copyNumbers (base : Nat) (loop : List StateId) : Array StateId :=
  loop.zipIdx.foldl (fun a (id, i) => a.setIfInBounds id (base + i)) (Array.range base)

/-- Copies a loop, and moves the edges from outside into `entry` to the copy. -/
def copyLoop (maxStates : Nat) (loop : List StateId) (entry : StateId) (s : Splitting) :
    Except Bailout Splitting := do
  let base := s.size
  if maxStates < base + loop.length then throw tooLarge
  let s ← s.charge maxStates (base + loop.length)
  let numbers := copyNumbers base loop
  let copyOf (id : StateId) : StateId := numbers.getD id id
  let copies := loop.map fun id => (s.states.getD id {}).mapSuccessors copyOf
  let moved (id : StateId) : StateId := if id = entry then copyOf entry else id
  let inLoop := flags base loop
  let outside := s.states.mapIdx fun id state =>
    if inLoop.getD id false then state else state.mapSuccessors moved
  return { s with states := outside ++ copies.toArray }.redirectRoots moved

/-! ## A pass -/

/-- Whether the component is a loop: more than one state, or one that leads to itself. -/
def isLoop (s : Splitting) (component : List StateId) : Bool :=
  match component with
  | [id] => (s.states.getD id {}).successors.contains id
  | _ => true

/-- The states of a loop that are roots or that outside states led to when the pass began. -/
def entries (back : Graph) (loop : List StateId) (s : Splitting) : List StateId :=
  let inLoop := flags s.size loop
  loop.filter fun id => s.isRoot id || (back.next id).any fun p => !inLoop.getD p false

/-- The edges between the states of a region. -/
def regionGraph (region : List StateId) (s : Splitting) : Graph :=
  let inRegion := flags s.size region
  s.states.mapIdx fun id state =>
    if inRegion.getD id false then state.successors.filter (inRegion.getD · false) else []

/-- The components of the states in a region, by edges that stay in it. -/
def regionComponents (maxStates : Nat) (region : List StateId) (s : Splitting) :
    Except Bailout (List (List StateId) × Splitting) := do
  let g := s.regionGraph region
  let s ← s.charge maxStates (region.length + g.edgeCount)
  return (g.components region, s)

/-- The state of a pass: the regions still to be searched, the next one first, and whether a loop
has been copied. -/
structure Pass where
  current : Splitting
  regions : List (List StateId)
  changed : Bool := false

namespace Pass

/-- Treats a component. A loop with one entry is searched again without that entry. -/
def treat (maxStates : Nat) (back : Graph) (p : Pass) (component : List StateId) :
    Except Bailout Pass := do
  if p.current.isLoop component then
    match p.current.entries back component with
    | [] => return p
    | [header] => return { p with regions := component.erase header :: p.regions }
    | _ :: others =>
      let copied ← others.foldlM (fun s entry => s.copyLoop maxStates component entry) p.current
      return { p with current := copied, changed := true }
  else return p

/-- Searches all regions. Each region after the first lacks one state more, so `fuel` is enough if
it exceeds the number of states. -/
def search (maxStates : Nat) (back : Graph) : Nat → Pass → Except Bailout Pass
  | 0, p => .ok p
  | fuel + 1, p =>
    match p.regions with
    | [] => .ok p
    | region :: regions => do
      let (components, current) ← p.current.regionComponents maxStates region
      search maxStates back fuel
        (← components.foldlM (treat maxStates back) { p with current, regions })

end Pass

/-- Copies all loops with several entries that can be seen. Tells whether there were any. -/
def pass (maxStates : Nat) (s : Splitting) : Except Bailout (Bool × Splitting) := do
  let s ← s.charge maxStates s.fullWork
  let start : Pass := { current := s, regions := [List.range s.size] }
  let p ← start.search maxStates s.graph.transpose (s.size + 1)
  return (p.changed, p.current)

/-! ## Garbage -/

/-- Which states the roots lead to; the dead state always counts. -/
def reachable (s : Splitting) : List Bool :=
  let g := s.graph
  let unseen := Array.replicate s.size Graph.Mark.open
  let (_, marks) := g.visit .open .closed (g.edgeCount + 3) [s.rootStart, s.rootMid] [] unseen
  (marks.setIfInBounds dead .closed).toList.map (· = .closed)

/-- The numbers of the states that are kept, from `next` on; those that are not get the dead one. -/
def newNumbers (next : Nat) : List Bool → List StateId
  | [] => []
  | true :: kept => next :: newNumbers (next + 1) kept
  | false :: kept => dead :: newNumbers next kept

/-- Drops the states that cannot be reached, and numbers the others anew in the same order. -/
def dropUnreachable (maxStates : Nat) (s : Splitting) : Except Bailout Splitting := do
  let s ← s.charge maxStates s.fullWork
  let kept := s.reachable
  let numbers := (newNumbers 0 kept).toArray
  let rename (id : StateId) : StateId := numbers.getD id dead
  let states := ((s.states.toList.zip kept).filter (·.2)).map (·.1.mapSuccessors rename)
  return { s with states := states.toArray }.redirectRoots rename

/-! ## All passes -/

/-- Passes until no loop is copied. Each pass takes work, so `fuel` is enough if it exceeds the work
limit. -/
def run (maxStates : Nat) : Nat → Splitting → Except Bailout Splitting
  | 0, _ => .error tooLarge
  | fuel + 1, s => do
    let (changed, s) ← s.pass maxStates
    if changed then
      let s ← s.dropUnreachable maxStates
      if maxStates < s.size then throw tooLarge
      run maxStates fuel s
    else return s

end Splitting

/-- An automaton that does the same and in which every loop has one entry, of at most `maxStates`
states unless it is `d` itself. -/
def splitLoops (d : Dfa) (maxStates : Nat) : Except Bailout Dfa := do
  let start : Splitting := { states := d.states, rootStart := d.rootStart, rootMid := d.rootMid }
  let s ← start.run maxStates (Splitting.workLimit maxStates + 2)
  return { d with states := s.states, rootStart := s.rootStart, rootMid := s.rootMid }

end PatternAutomata.Dfa
