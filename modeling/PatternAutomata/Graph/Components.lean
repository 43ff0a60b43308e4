import PatternAutomata.Ascending

/-!
# Strongly connected components

A graph gives for each vertex the vertices that its edges lead to. Two vertices are in one component
if each reaches the other. The component of a vertex is found by going backward from it and then
forward within what that found. Whatever the order in which vertices are taken, this finds exactly
the components; the finishing order of a depth-first search is taken because with it the first of
the two searches never leaves the component.
-/

namespace PatternAutomata

/-- The ends of the edges of each vertex. -/
abbrev Graph := Array (List Nat)

namespace Graph

def next (g : Graph) (v : Nat) : List Nat := g.getD v []

def edgeCount (g : Graph) : Nat := g.foldl (fun n ends => n + ends.length) 0

/-- The graph with all edges turned around. -/
def transpose (g : Graph) : Graph :=
  g.toList.zipIdx.foldl (fun t (ends, v) => ends.foldl (fun t w => t.modify w (v :: ·)) t)
    (Array.replicate g.size [])

/-! ## Searching -/

/-- How far the search for components has come with a vertex. -/
inductive Mark where
  /-- It is not in a component yet. -/
  | open
  /-- It reaches the vertex whose component is being found. -/
  | candidate
  /-- It is in a component. -/
  | closed
deriving DecidableEq, Inhabited

/-- Visits what is reachable from the vertices in `work` through vertices marked `src`, and marks it
`dst`. Each edge is followed at most once, so `fuel` is enough if it exceeds the number of edges and
pending vertices. Returns the vertices visited, added to `found`, and the marks. -/
def visit (g : Graph) (src dst : Mark) :
    Nat → List Nat → List Nat → Array Mark → List Nat × Array Mark
  | 0, _, found, marks => (found, marks)
  | _ + 1, [], found, marks => (found, marks)
  | fuel + 1, v :: work, found, marks =>
    if marks.getD v .closed = src then
      visit g src dst fuel (g.next v ++ work) (v :: found) (marks.setIfInBounds v dst)
    else visit g src dst fuel work found marks

/-- What is reachable from the vertex `v` through vertices marked `src`. -/
def reach (g : Graph) (src dst : Mark) (v : Nat) (marks : Array Mark) : List Nat × Array Mark :=
  visit g src dst (g.edgeCount + 2) [v] [] marks

/-- A depth-first search. A frame holds a vertex and those of its edges that are still to be
followed. Returns the vertices in the order in which they are finished, the last one first. -/
def finishing (g : Graph) : Nat → List (Nat × List Nat) → Array Bool → List Nat → List Nat
  | 0, _, _, order => order
  | _ + 1, [], _, order => order
  | fuel + 1, (v, []) :: frames, seen, order => finishing g fuel frames seen (v :: order)
  | fuel + 1, (v, w :: ws) :: frames, seen, order =>
    if seen.getD w true then finishing g fuel ((v, ws) :: frames) seen order
    else
      finishing g fuel ((w, g.next w) :: (v, ws) :: frames) (seen.setIfInBounds w true) order

/-- The vertices in the order in which a depth-first search from `starts` finishes them, the last
one first. The starts are the edges of a vertex outside the graph, which is finished last. -/
def finishingOrder (g : Graph) (starts : List Nat) : List Nat :=
  let fuel := 2 * (g.edgeCount + starts.length) + 2
  (finishing g fuel [(g.size, starts)] (Array.replicate g.size false) []).tail

/-! ## Components -/

/-- The component of an open vertex `v`, ascending, and the marks with the component closed. -/
def componentOf (g back : Graph) (v : Nat) (marks : Array Mark) : List Nat × Array Mark :=
  let (candidates, marks) := back.reach .open .candidate v marks
  let (component, marks) := g.reach .candidate .closed v marks
  let reopen (marks : Array Mark) (w : Nat) :=
    marks.modify w fun m => if m = .candidate then .open else m
  (ascending component, candidates.foldl reopen marks)

/-- Adds the component of `v`, unless it has been found. -/
def addComponent (g back : Graph) (found : List (List Nat) × Array Mark) (v : Nat) :
    List (List Nat) × Array Mark :=
  if found.2.getD v .closed = .open then
    let (component, marks) := componentOf g back v found.2
    (component :: found.1, marks)
  else found

/-- The components of the vertices `vs`, which no edge leaves. One from which another can be reached
comes after it. -/
def components (g : Graph) (vs : List Nat) : List (List Nat) :=
  let marks := vs.foldl (fun ms v => ms.setIfInBounds v Mark.open)
    (Array.replicate g.size Mark.closed)
  ((g.finishingOrder vs).foldl (addComponent g g.transpose) ([], marks)).1

end Graph

end PatternAutomata
