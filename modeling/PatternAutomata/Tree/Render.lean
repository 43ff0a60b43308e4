import PatternAutomata.Tree.Basic

/-!
# Trees as text

A tree is shown much like a pattern, with loop groups as `(?*…)` and unrolled ones as `(?~…)`.
-/

namespace PatternAutomata

/-- A code point as it is shown: the graphic characters of ASCII and the blank by themselves, all
others by number. -/
def renderCodePoint (c : Nat) : String :=
  if 0x20 ≤ c && c ≤ 0x7E then (Char.ofNat c).toString
  else "\\u\x7b" ++ String.ofList (Nat.toDigits 16 c) ++ "\x7d"

def CodePointRange.render (r : CodePointRange) : String :=
  if r.isSingle then renderCodePoint r.lo else renderCodePoint r.lo ++ "-" ++ renderCodePoint r.hi

def CodePointSet.render (s : CodePointSet) : String :=
  let inner := String.join (s.ranges.map CodePointRange.render)
  if s.isSingle then inner else "[" ++ inner ++ "]"

def Assertion.render : Assertion → String
  | atStart => "^"
  | atEnd => "$"
  | wordBoundary => "\\b"
  | notWordBoundary => "\\B"

/-- How a group of this role opens. -/
def GroupRole.opening : GroupRole → String
  | plain => "(?:"
  | capture _ => "("
  | unrolled => "(?~"
  | loop => "(?*"

/-- How a look-around opens. -/
def LookAround.opening (l : LookAround) : String :=
  (match l.direction with
    | .ahead => "(?"
    | .behind => "(?<") ++ if l.negated then "!" else "="

namespace Tree

/-- Alternatives, given as texts. -/
def joinAlternatives (texts : List String) : String := String.intercalate "|" texts

/-- The node `id` as text. Children have smaller numbers, so any `fuel` above `id` will do. -/
def renderNode (t : Tree) : Nat → NodeId → String
  | 0, _ => ""
  | fuel + 1, id =>
    match t.kind id with
    | .charClass set => set.render
    | .backReference n => "\\" ++ toString n
    | .assertion a => a.render
    | .group g => g.role.opening ++ joinAlternatives (g.alternatives.map (t.renderNode fuel)) ++ ")"
    | .look l =>
      l.opening ++ joinAlternatives ((t.alternatives l.body).map (t.renderNode fuel)) ++ ")"
    | .sequence terms => String.join (terms.map (t.renderNode fuel))
    | .matchFound => ""

/-- The whole pattern as text. -/
def render (t : Tree) : String :=
  joinAlternatives ((t.alternatives t.root).map (t.renderNode t.size))

end Tree

end PatternAutomata
