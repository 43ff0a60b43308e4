import PatternAutomata.Tree.Arena

/-!
# Copying with a stack

A subtree of any depth can be copied without recursion. A stack holds the nodes that are to be visited,
each once before its children and once after them. Copies that have no parent yet wait in a list, and
the copy of a node takes the last of them, one for each child that was copied.
-/

namespace PatternAutomata

/-- The children that are copied before a node. The end of a look-around is not among them: a copy
gets an end of its own. -/
def NodeKind.copied : NodeKind → List NodeId
  | group g => g.alternatives
  | look l => [l.body]
  | sequence terms => terms
  | _ => []

inductive Visit where
  /-- The node is to be copied, its children first. -/
  | open (id : NodeId)
  /-- The children of the node have been copied. -/
  | close (id : NodeId)

structure CopyStack where
  /-- The next visit first. -/
  visits : List Visit
  /-- Copies without a parent, in the order in which they were made. -/
  waiting : List NodeId
  /-- The copy made last. -/
  last : NodeId

namespace Grow

/-- Adds a copy of a node of the kind, above the copies of its children. -/
def addCopy (kind : NodeKind) (children : List NodeId) : Grow NodeId :=
  match kind with
  | .group g => add (.group { g with alternatives := children })
  | .look l => look l.direction l.negated (children.getD 0 l.body)
  | .sequence _ => sequence children
  | kind => add kind

def visit (v : Visit) (s : CopyStack) : Grow CopyStack := do
  let kinds := (← get).kinds
  match v with
  | .open id =>
    let children := (kinds.getD id .matchFound).copied
    return { s with visits := children.map .open ++ .close id :: s.visits }
  | .close id =>
    let kind := kinds.getD id .matchFound
    let keep := s.waiting.length - kind.copied.length
    let copy ← addCopy kind (s.waiting.drop keep)
    return { s with waiting := s.waiting.take keep ++ [copy], last := copy }

/-- Makes all visits, at most `fuel` of them. -/
def visitAll : Nat → CopyStack → Grow NodeId
  | 0, s => pure s.last
  | fuel + 1, s =>
    match s.visits with
    | [] => pure s.last
    | v :: visits => do visitAll fuel (← visit v { s with visits })

/-- Copies the subtree at `id` and returns the number of the copy. Every node of the subtree is visited
twice, so the fuel is enough. -/
def copyByStack (id : NodeId) : Grow NodeId := do
  visitAll (2 * (← get).kinds.size) { visits := [.open id], waiting := [], last := id }

end Grow

end PatternAutomata
