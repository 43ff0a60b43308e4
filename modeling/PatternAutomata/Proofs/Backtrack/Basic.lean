import PatternAutomata.Captures.Boundaries
import PatternAutomata.Nfa.LookBehind

/-!
# Backtracking

What a tree matches is said by a matcher that backtracks. `Tree.ways` lists all ways to match a
node from a spot on, in the order in which a backtracking matcher tries them: the alternatives of a
group in their order, and one term after the other. An iteration of a quantifier first resets the
captures inside it, and fails if it could have been skipped and its first term took no character.
A look-ahead is tried where it stands. It only tells whether its body matches, and of the ways of
the body only the first counts.

What is remembered of a way is left open, as a `Recorder`. Capture arrays are one; the operations
on the captures in their order are another.
-/

namespace PatternAutomata

/-- What a way through the tree does to the captures. -/
inductive CaptureOp where
  | start (group : Nat)
  | stop (group : Nat)
  /-- Unsets the groups from `first` to before `bound`. -/
  | reset (first bound : Nat)
deriving DecidableEq

namespace CaptureOp

/-- Whether the operation writes entry `i` of a capture array. -/
def touches (op : CaptureOp) (i : Nat) : Bool :=
  match op with
  | start g => i = 2 * g
  | stop g => i = 2 * g + 1
  | reset first bound => first ≤ i / 2 && i / 2 < bound

/-- What it writes at a position. -/
def value (op : CaptureOp) (position : Nat) : Option Nat :=
  match op with
  | reset _ _ => none
  | _ => some position

def apply (op : CaptureOp) (captures : Captures) (position : Nat) : Captures :=
  captures.mapIdx fun i entry => if op.touches i then op.value position else entry

end CaptureOp

/-- What is remembered of a way. -/
structure Recorder (σ : Type) where
  /-- Remembers an operation at a position. -/
  mark : CaptureOp → Nat → σ → σ
  /-- Remembers that the look-ahead `id` has held at a position, given what was remembered before
  and after its body. -/
  look : NodeId → Nat → σ → σ → σ

/-- A position in the text, and what is remembered on reaching it. -/
structure Spot (σ : Type) where
  position : Nat
  memory : σ

variable {σ : Type}

namespace Spot

def mark (r : Recorder σ) (op : CaptureOp) (s : Spot σ) : Spot σ :=
  { s with memory := r.mark op s.position s.memory }

end Spot

namespace Group

/-- Begins an alternative of the group. -/
def enter (g : Group) (r : Recorder σ) (s : Spot σ) : Spot σ :=
  let s := if g.isQuantifier then s.mark r (.reset g.innerStart g.innerEnd) else s
  match g.number? with
  | some n => s.mark r (.start n)
  | none => s

/-- Ends an alternative of the group. -/
def exit (g : Group) (r : Recorder σ) (s : Spot σ) : Spot σ :=
  match g.number? with
  | some n => s.mark r (.stop n)
  | none => s

end Group

namespace Tree

/-- Whether an iteration of the group could have been skipped. -/
def canSkip (t : Tree) (g : Group) : Bool :=
  g.isQuantifier && g.alternatives.any fun a => (t.terms a).isEmpty

end Tree

/-! ## Assertions -/

/-- A text, and what the flags make of its lines. -/
structure Subject where
  multiline : Bool
  text : List Char

namespace Subject

def before? (x : Subject) (position : Nat) : Option Char :=
  if position = 0 then none else x.text[position - 1]?

def after? (x : Subject) (position : Nat) : Option Char := x.text[position]?

def isWord (c : Option Char) : Bool := c.any fun c => CodePointSet.wordChars.contains c.toNat

def isLineTerminator (c : Option Char) : Bool :=
  c.any fun c => CodePointSet.lineTerminators.contains c.toNat

def holds (x : Subject) (a : Assertion) (position : Nat) : Bool :=
  match a with
  | .atStart => position = 0 || x.multiline && isLineTerminator (x.before? position)
  | .atEnd => position = x.text.length || x.multiline && isLineTerminator (x.after? position)
  | .wordBoundary => isWord (x.before? position) != isWord (x.after? position)
  | .notWordBoundary => isWord (x.before? position) == isWord (x.after? position)

/-- Whether the characters lie in the classes, one in each. -/
def liesIn : List Char → List CodePointSet → Bool
  | [], [] => true
  | c :: cs, set :: sets => set.contains c.toNat && liesIn cs sets
  | _, _ => false

/-- Whether a text ends with characters of the classes. -/
def endsIn (text : List Char) (classes : List CodePointSet) : Bool :=
  classes.length ≤ text.length && liesIn (text.drop (text.length - classes.length)) classes

/-- Whether the text before a position ends with characters of the classes. -/
def endsWith (x : Subject) (position : Nat) (classes : List CodePointSet) : Bool :=
  endsIn (x.text.take position) classes

end Subject

/-! ## Ways -/

namespace Tree

variable (t : Tree) (x : Subject) (r : Recorder σ)

/-- The ways to match terms one after the other, given those of each term. -/
def inTurn (next : NodeId → Spot σ → List (Spot σ)) : List NodeId → Spot σ → List (Spot σ)
  | [], s => [s]
  | id :: ids, s => (next id s).flatMap (inTurn next ids)

/-- The ways to match the first term of an iteration, and then the others. -/
def iteration (g : Group) (next : NodeId → Spot σ → List (Spot σ)) (first : NodeId)
    (others : List NodeId) (s : Spot σ) : List (Spot σ) :=
  let begun := (next first (g.enter r s)).filter fun s' =>
    !(t.canSkip g && s'.position == s.position)
  begun.flatMap fun s' => (inTurn next others s').map (g.exit r)

/-- The ways to match a group, given those of each term; a loop is entered at most `count` times. -/
def groupWays (g : Group) (next : NodeId → Spot σ → List (Spot σ)) :
    Nat → Spot σ → List (Spot σ)
  | 0, _ => []
  | count + 1, s => g.alternatives.flatMap fun a =>
    match t.terms a with
    | [] => if g.isQuantifier then [s] else [g.exit r (g.enter r s)]
    | first :: others =>
      let ends := iteration t r g next first others s
      if g.isLoop then ends.flatMap (groupWays g next count) else ends

/-- The ways to match a look-around, given those of its body. -/
def lookWays (id : NodeId) (l : LookAround) (next : NodeId → Spot σ → List (Spot σ))
    (s : Spot σ) : List (Spot σ) :=
  match l.direction with
  | .ahead =>
    match (next l.body s).head? with
    | some s' =>
      if l.negated then [] else [{ s with memory := r.look id s.position s.memory s'.memory }]
    | none => if l.negated then [s] else []
  | .behind =>
    match LookBehindTable.literalBody? t l.body with
    | some classes => if x.endsWith s.position classes = l.negated then [] else [s]
    | none => []

/-- The ways to match the node `id`, the preferred ones first, in trees of at most `depth` levels.
No loop is entered more often than there are characters left, and once more to end. -/
def waysWithin : Nat → NodeId → Spot σ → List (Spot σ)
  | 0, _, _ => []
  | depth + 1, id, s =>
    match t.kind id with
    | .charClass set =>
      if (x.after? s.position).any fun c => set.contains c.toNat then
        [{ s with position := s.position + 1 }]
      else []
    | .assertion a => if x.holds a s.position then [s] else []
    | .look l => lookWays t x r id l (waysWithin depth) s
    | .group g => groupWays t r g (waysWithin depth) (x.text.length - s.position + 1) s
    | .backReference _ | .sequence _ | .matchFound => []

theorem waysWithin_zero (id : NodeId) (s : Spot σ) : waysWithin t x r 0 id s = [] := by
  rw [waysWithin]

/-- The ways to match the node `id`. No way down meets a node twice, so none is longer than the
tree. -/
def ways (id : NodeId) (s : Spot σ) : List (Spot σ) := waysWithin t x r t.size id s

end Tree

/-! ## Captures -/

/-- Where in a text of the given length matches may begin: at `start`, or unless the pattern is
sticky also at later positions. -/
def starts (sticky : Bool) (length start : Nat) : List Nat :=
  if sticky then [start] else List.range' start (length + 1 - start)

theorem mem_starts {sticky : Bool} {length start s : Nat} (h : start ≤ length) :
    s ∈ starts sticky length start ↔
      start ≤ s ∧ s ≤ length ∧ (sticky = true → s = start) := by
  unfold starts
  cases sticky with
  | true =>
    simp only [ite_true, List.mem_singleton, forall_const]
    omega
  | false =>
    simp only [Bool.false_eq_true, ite_false, List.mem_range'_1, false_implies, and_true]
    omega

/-- The starts ascend. -/
theorem starts_pairwise (sticky : Bool) (length start : Nat) :
    (starts sticky length start).Pairwise (· < ·) := by
  unfold starts
  cases sticky with
  | true => exact List.pairwise_singleton ..
  | false => exact List.pairwise_lt_range' ..

/-- Remembers the captures. A look-ahead that has held keeps what its body captured. -/
def Captures.recorder : Recorder Captures where
  mark := fun op position captures => op.apply captures position
  look := fun _ _ _ inside => inside

namespace Tree

/-- The captures of the preferred way to match the whole tree from `start` on. -/
def matchAt (t : Tree) (x : Subject) (start : Nat) : Option Captures :=
  let unset : Captures := Array.replicate (2 * t.groupCount) none
  ((t.ways x Captures.recorder t.root ⟨start, unset⟩).head?).map Spot.memory

/-- The captures of the match that begins first. -/
def firstMatch (t : Tree) (sticky : Bool) (x : Subject) (start : Nat) : Option Captures :=
  (starts sticky x.text.length start).findSome? (t.matchAt x)

end Tree

end PatternAutomata
