import PatternAutomata.CodePoint.Set

/-!
# Syntax trees

The tree of a pattern is kept in an arena: nodes are numbered in the order in which they were made,
and a node refers to its children by their numbers. Quantifiers are gone: an unbounded one is a loop
group, a counted one a run of unrolled groups.
-/

namespace PatternAutomata

abbrev NodeId := Nat

inductive Assertion where
  | atStart
  | atEnd
  | wordBoundary
  | notWordBoundary
deriving DecidableEq

/-- What a group is there for. -/
inductive GroupRole where
  /-- It only holds alternatives together. -/
  | plain
  /-- It captures, under this number; the whole pattern is group 0. -/
  | capture (number : Nat)
  /-- It is one iteration of a counted quantifier, which may be optional. -/
  | unrolled
  /-- It is entered again after each iteration. -/
  | loop
deriving DecidableEq

structure Group where
  /-- Sequences, the preferred one first. -/
  alternatives : List NodeId
  role : GroupRole
  /-- The capture groups inside are numbered from `innerStart` to before `innerEnd`. -/
  innerStart : Nat
  innerEnd : Nat
deriving DecidableEq

namespace Group

def isLoop (g : Group) : Bool := g.role = .loop

/-- Whether the group stands for a quantifier. -/
def isQuantifier (g : Group) : Bool := g.role = .loop || g.role = .unrolled

/-- The number under which the group captures. -/
def number? (g : Group) : Option Nat :=
  match g.role with
  | .capture n => some n
  | _ => none

end Group

inductive Direction where
  | ahead
  | behind
deriving DecidableEq

structure LookAround where
  direction : Direction
  negated : Bool
  /-- The body, a plain group. -/
  body : NodeId
  /-- The node that is reached when the body has matched. -/
  matchFound : NodeId
deriving DecidableEq

inductive NodeKind where
  | charClass (set : CodePointSet)
  | backReference (number : Nat)
  | assertion (a : Assertion)
  | group (g : Group)
  | look (l : LookAround)
  | sequence (terms : List NodeId)
  | matchFound
deriving DecidableEq

instance : Inhabited NodeKind := ⟨.matchFound⟩

/-- The nodes directly below a node. -/
def NodeKind.children : NodeKind → List NodeId
  | group g => g.alternatives
  | look l => [l.body, l.matchFound]
  | sequence terms => terms
  | _ => []

/-- The place of a node in the tree: its parent, and its index if that is a sequence. -/
structure Place where
  parent : Option NodeId := none
  index : Nat := 0
deriving Inhabited

structure Tree where
  kinds : Array NodeKind
  places : Array Place
  root : NodeId
  /-- The node that is reached when the whole pattern has matched. -/
  matchFound : NodeId
  /-- The names of the capture groups, by number. -/
  groupNames : Array (Option String)
deriving Inhabited

namespace Tree

def size (t : Tree) : Nat := t.kinds.size

def kind (t : Tree) (id : NodeId) : NodeKind := t.kinds.getD id .matchFound

def place (t : Tree) (id : NodeId) : Place := t.places.getD id {}

def parent (t : Tree) (id : NodeId) : Option NodeId := (t.place id).parent

def group? (t : Tree) (id : NodeId) : Option Group :=
  match t.kind id with
  | .group g => some g
  | _ => none

/-- The alternatives of a group. -/
def alternatives (t : Tree) (id : NodeId) : List NodeId :=
  match t.kind id with
  | .group g => g.alternatives
  | _ => []

/-- The terms of a sequence. -/
def terms (t : Tree) (id : NodeId) : List NodeId :=
  match t.kind id with
  | .sequence terms => terms
  | _ => []

/-- The number of capture groups, the whole pattern included. -/
def groupCount (t : Tree) : Nat := t.groupNames.size

/-- Whether no group loops, so that matches have bounded length. -/
def isLoopFree (t : Tree) : Bool :=
  t.kinds.all fun
    | .group g => !g.isLoop
    | _ => true

def usesAssertion (t : Tree) (a : Assertion) : Bool := t.kinds.contains (.assertion a)

/-! ## Places -/

/-- Records that the nodes below `id` are there. -/
def placeChildren (places : Array Place) (kind : NodeKind) (id : NodeId) : Array Place :=
  match kind with
  | .sequence terms =>
    terms.zipIdx.foldl (fun ps (c, i) => ps.setIfInBounds c ⟨some id, i⟩) places
  | kind => kind.children.foldl (fun ps c => ps.setIfInBounds c ⟨some id, 0⟩) places

/-- The place of every node of an arena. -/
def placesOf (kinds : Array NodeKind) : Array Place :=
  kinds.toList.zipIdx.foldl (fun ps (k, id) => placeChildren ps k id)
    (Array.replicate kinds.size {})

/-! ## Reachable nodes -/

/-- Marks the nodes below `id`, if `id` itself is marked. -/
def markChildren (t : Tree) (id : NodeId) (marks : Array Bool) : Array Bool :=
  if marks.getD id false then
    (t.kind id).children.foldl (fun ms c => ms.setIfInBounds c true) marks
  else marks

/-- Marks what is reachable from marked nodes below `n`. Children have smaller numbers than their
parents, so one pass downward finds them all. -/
def markDown (t : Tree) : Nat → Array Bool → Array Bool
  | 0, marks => marks
  | n + 1, marks => t.markDown n (t.markChildren n marks)

/-- The nodes of the pattern, ascending; nodes that a quantifier dropped are left out. -/
def reachable (t : Tree) : List NodeId :=
  let marks := t.markDown t.size ((Array.replicate t.size false).setIfInBounds t.root true)
  (List.range t.size).filter fun id => marks.getD id false

end Tree

end PatternAutomata
