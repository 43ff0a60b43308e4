import PatternAutomata.BitSet
import PatternAutomata.CodePoint.Classes
import PatternAutomata.Error
import PatternAutomata.Tree.Basic

/-!
# Looking behind

A look-behind whose body is a fixed run of character classes can be answered from a set of bits that
is updated with every character. The table of a pattern holds the bodies of its look-behinds. It
also holds a word character, if the pattern asks for word boundaries, and a line terminator, if it
asks for starts of lines.

An entry with `n` classes owns `n + 1` bits of a tracker: bit `k` of them is set when the last `k`
characters match the first `k` classes. The entry is satisfied when bit `n` is set.
-/

namespace PatternAutomata

/-- A body to look for behind the current position, and where its bits begin. -/
structure LookBehind where
  classes : List CodePointSet
  offset : Nat

namespace LookBehind

/-- Puts bodies one after the other, from bit `offset` on. -/
def layOut (offset : Nat) : List (List CodePointSet) → List LookBehind
  | [] => []
  | body :: bodies => ⟨body, offset⟩ :: layOut (offset + body.length + 1) bodies

/-- The bits above bit `bit` that are set after `c`, given those before it. -/
def shifted (tracker : BitSet) (c bit : Nat) : List CodePointSet → BitSet
  | [] => ∅
  | cls :: classes =>
    let later := shifted tracker c (bit + 1) classes
    if tracker.contains bit && cls.contains c then later.insert (bit + 1) else later

/-- The bits of the entry after `c`. -/
def advance (e : LookBehind) (tracker : BitSet) (c : Nat) : BitSet :=
  (shifted tracker c e.offset e.classes).insert e.offset

def isSatisfied (e : LookBehind) (tracker : BitSet) : Bool :=
  tracker.contains (e.offset + e.classes.length)

end LookBehind

structure LookBehindTable where
  entries : List LookBehind
  /-- The entries of the look-behinds in the tree. -/
  ofNode : List (NodeId × Nat)
  /-- The entry for a word character. -/
  word : Option Nat
  /-- The entry for a line terminator. -/
  lineTerminator : Option Nat
deriving Inhabited

namespace LookBehindTable

def size (t : LookBehindTable) : Nat := t.entries.length

def isEmpty (t : LookBehindTable) : Bool := t.entries.isEmpty

/-- How many characters before a position matter at most. -/
def maxLength (t : LookBehindTable) : Nat :=
  (t.entries.map (·.classes.length)).foldl max 0

def entry? (t : LookBehindTable) (id : NodeId) : Option Nat := t.ofNode.lookup id

/-- The classes that trackers tell apart. -/
def classes (t : LookBehindTable) : List CodePointSet := t.entries.flatMap (·.classes)

/-! ## Trackers -/

/-- The tracker at the start of the input. -/
def initial (t : LookBehindTable) : BitSet := t.entries.foldl (fun s e => s.insert e.offset) ∅

/-- The tracker after the character `c`. -/
def advance (t : LookBehindTable) (tracker : BitSet) (c : Nat) : BitSet :=
  t.entries.foldl (fun s e => s.union (e.advance tracker c)) ∅

/-- The entries that are satisfied. -/
def satisfied (t : LookBehindTable) (tracker : BitSet) : BitSet :=
  t.entries.zipIdx.foldl (fun s (e, i) => if e.isSatisfied tracker then s.insert i else s) ∅

/-! ## The table of a pattern -/

/-- The classes of a body that is a single run of classes. -/
def literalBody? (t : Tree) (body : NodeId) : Option (List CodePointSet) :=
  match t.alternatives body with
  | [alternative] => (t.terms alternative).mapM fun term =>
    match t.kind term with
    | .charClass set => some set
    | _ => none
  | _ => none

/-- The body to look for at a node, if the node is a look-behind. Refuses what automata do not
offer. -/
def bodyAt? (t : Tree) (id : NodeId) : Except Bailout (Option (NodeId × List CodePointSet)) :=
  match t.kind id with
  | .backReference _ => .error (Stage.nfa.unsupported .backReference)
  | .look l =>
    match l.direction with
    | .ahead => if l.negated then .error (Stage.nfa.unsupported .negativeLookAhead) else .ok none
    | .behind =>
      match literalBody? t l.body with
      | some classes => .ok (some (id, classes))
      | none => .error (Stage.nfa.unsupported .nonLiteralLookBehind)
  | _ => .ok none

/-- The table of a pattern, if automata can express all that the pattern contains. -/
def ofTree (t : Tree) (multiline : Bool) : Except Bailout LookBehindTable := do
  let nodes := t.reachable
  let bodies := (← nodes.mapM (bodyAt? t)).filterMap id
  let uses (a : Assertion) : Bool := nodes.any fun id => t.kind id = .assertion a
  let word := uses .wordBoundary || uses .notWordBoundary
  let line := multiline && uses .atStart
  let count := bodies.length
  let implicit := (if word then [[CodePointSet.wordChars]] else []) ++
    if line then [[CodePointSet.lineTerminators]] else []
  return {
    entries := LookBehind.layOut 0 (bodies.map (·.2) ++ implicit)
    ofNode := (bodies.map (·.1)).zipIdx
    word := if word then some count else none
    lineTerminator := if line then some (if word then count + 1 else count) else none }

end LookBehindTable

end PatternAutomata
