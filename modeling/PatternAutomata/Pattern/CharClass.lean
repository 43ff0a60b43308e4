import PatternAutomata.Pattern.Escape

/-!
# Bracketed classes

The text between brackets lists code points, ranges and named classes. A dash that does not stand
between two code points is a member, unless the unicode flag forbids it.
-/

namespace PatternAutomata.Pattern

/-- One item of a class, or one end of a range. -/
inductive ClassAtom where
  | point (c : Nat)
  | set (s : CodePointSet)

def ClassAtom.ranges : ClassAtom → List CodePointRange
  | point c => [.single c]
  | set s => s.ranges

def classAtom (s : Settings) (cur : Cursor) : Except SyntaxError (ClassAtom × Cursor) :=
  let start := cur.pos
  match cur.rest with
  | [] => fail start .unclosedCharacterClass
  | '\\' :: 'b' :: _ => .ok (.point 0x08, cur.drop 2)
  | '\\' :: e :: _ => do
    match classEscape? e with
    | some set => return (.set set, cur.drop 2)
    | none =>
      if s.unicode ∧ (e = 'p' ∨ e = 'P') then
        let (set, cur) ← property s (e = 'P') start (cur.drop 2)
        return (.set set, cur)
      else
        let (c, cur) ← characterEscape s.unicode true start (cur.drop 1)
        return (.point c, cur)
  | '\\' :: [] => fail start .trailingBackslash
  | c :: _ => .ok (.point c.toNat, cur.drop 1)

/-- Whether a dash follows that can make a range: one that is not the last item. -/
def beforeRangeDash (cur : Cursor) : Bool :=
  match cur.rest with
  | '-' :: c :: _ => c != ']'
  | _ => false

/-- What a dash between two atoms makes of them; `start` is the position of the first. -/
def rangeOf (unicode : Bool) (start : Nat) (a b : ClassAtom) :
    Except SyntaxError (List CodePointRange) :=
  match a, b with
  | .point lo, .point hi =>
    match CodePointRange.ofBounds? lo hi with
    | some r => .ok [r]
    | none => fail start .invalidCharacterClassRange
  | a, b =>
    if unicode then fail start .invalidClassEscapeInRange
    else .ok (a.ranges ++ .single '-'.toNat :: b.ranges)

/-- One atom, or two with a dash between them. -/
def classItem (s : Settings) (cur : Cursor) :
    Except SyntaxError (List CodePointRange × Cursor) := do
  let (a, after) ← classAtom s cur
  if beforeRangeDash after then
    let (b, after) ← classAtom s (after.drop 1)
    return (← rangeOf s.unicode cur.pos a b, after)
  else return (a.ranges, after)

/-- The items up to the closing bracket; the class began at `start`. No item is empty, so `fuel` is
enough if it is the length of the text that is left. -/
def classItems (s : Settings) (start : Nat) :
    Nat → Cursor → Except SyntaxError (List CodePointRange × Cursor)
  | 0, _ => fail start .unclosedCharacterClass
  | fuel + 1, cur =>
    match cur.peek? with
    | none => fail start .unclosedCharacterClass
    | some ']' => .ok ([], cur.drop 1)
    | some _ => do
      let (ranges, cur) ← classItem s cur
      let (more, cur) ← classItems s start fuel cur
      return (ranges ++ more, cur)

/-- A class after its opening bracket, which stands at `start`. The complement of a negated class
is taken last, after the letters of the other case were added. -/
def charClass (s : Settings) (start : Nat) (cur : Cursor) :
    Except SyntaxError (CodePointSet × Cursor) := do
  let (negated, cur) := match cur.skip? "^" with
    | some cur => (true, cur)
    | none => (false, cur)
  let (ranges, cur) ← classItems s start cur.rest.length cur
  let set := s.foldCase (.ofRanges ranges)
  return (if negated then set.compl else set, cur)

end PatternAutomata.Pattern
