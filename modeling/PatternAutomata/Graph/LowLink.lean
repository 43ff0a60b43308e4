import PatternAutomata.Graph.Components

/-!
# Components in one search

The components of a graph can be found in one depth-first search. It numbers the vertices as it comes to
them and keeps them on a stack until their component is known. Each vertex that is being visited knows
the least number on the stack to which it was seen to lead. If that is its own number when all its edges
have been followed, then what is above it on the stack makes a component with it.
-/

namespace PatternAutomata.Graph

structure LowLink where
  /-- The numbers of the vertices that were met. -/
  index : Array (Option Nat)
  /-- The least number on the stack to which a vertex is known to lead. -/
  low : Array Nat
  onStack : Array Bool
  /-- The vertices that were met and are in no component yet, the last one first. -/
  stack : List Nat := []
  /-- The vertices being visited, each with those of its edges that are still to be followed. -/
  frames : List (Nat × List Nat) := []
  /-- The components in the order in which they were found. -/
  components : List (List Nat) := []
  /-- The number of the vertex that is met next. -/
  nextIndex : Nat := 0

namespace LowLink

/-- Nothing was met yet. -/
def new (g : Graph) : LowLink where
  index := .replicate g.size none
  low := .replicate g.size 0
  onStack := .replicate g.size false

/-- Begins to visit a vertex that was not met before. -/
def enter (g : Graph) (v : Nat) (s : LowLink) : LowLink :=
  { s with
    index := s.index.setIfInBounds v (some s.nextIndex)
    low := s.low.setIfInBounds v s.nextIndex
    onStack := s.onStack.setIfInBounds v true
    stack := v :: s.stack
    frames := (v, g.next v) :: s.frames
    nextIndex := s.nextIndex + 1 }

/-- Notes that the vertex leads to the one numbered `i`. -/
def lower (v i : Nat) (s : LowLink) : LowLink := { s with low := s.low.modify v (min · i) }

/-- Takes everything down to the vertex from the stack, as a component. -/
def pop (v : Nat) (s : LowLink) : LowLink :=
  let count := s.stack.idxOf v + 1
  let component := s.stack.take count
  { s with
    onStack := component.foldl (fun a w => a.setIfInBounds w false) s.onStack
    stack := s.stack.drop count
    components := s.components ++ [ascending component] }

/-- What the vertex leads to is now known, and the vertex below it leads there too. -/
def leave (v : Nat) (frames : List (Nat × List Nat)) (s : LowLink) : LowLink :=
  let s := { s with frames }
  match frames with
  | [] => s
  | (parent, _) :: _ => s.lower parent (s.low.getD v 0)

/-- Follows an edge of the innermost vertex, or leaves the vertex. -/
def step (g : Graph) (s : LowLink) : LowLink :=
  match s.frames with
  | [] => s
  | (v, w :: ws) :: frames =>
    let s := { s with frames := (v, ws) :: frames }
    match s.index.getD w none with
    | none => s.enter g w
    | some i => if s.onStack.getD w false then s.lower v i else s
  | (v, []) :: frames =>
    let left := s.leave v frames
    if s.index.getD v none = some (s.low.getD v 0) then left.pop v else left

/-- Makes steps until no vertex is being visited, at most `fuel` of them. -/
def run (g : Graph) : Nat → LowLink → LowLink
  | 0, s => s
  | fuel + 1, s => if s.frames.isEmpty then s else run g fuel (s.step g)

/-- Visits a vertex, if it was not met before. Each edge is followed once, and may lead to a vertex that
is left once. -/
def visit (g : Graph) (s : LowLink) (v : Nat) : LowLink :=
  if (s.index.getD v none).isNone then run g (2 * g.edgeCount + 2) (s.enter g v) else s

end LowLink

/-- The components of the vertices `vs`, which no edge leaves, by one search. -/
def lowLinkComponents (g : Graph) (vs : List Nat) : List (List Nat) :=
  (vs.foldl (LowLink.visit g) (.new g)).components

end PatternAutomata.Graph
