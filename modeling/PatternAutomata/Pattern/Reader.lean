import PatternAutomata.Pattern.CharClass
import PatternAutomata.Pattern.Quantifier

/-!
# Reading a pattern into a tree

The reader goes through the pattern once. Each step takes a bar, a parenthesis or an atom together
with the quantifier after it. Groups that are still open are kept as frames, so a step never looks
further than the construct it takes.
-/

namespace PatternAutomata.Pattern

/-! ## Atoms -/

/-- A term without parentheses: the node it becomes, and whether it may be quantified. -/
structure Atom where
  kind : NodeKind
  quantifiable : Bool := true

def literal (s : Settings) (c : Nat) : Atom := { kind := .charClass (s.foldCase (.single c)) }

def assertionAtom (a : Assertion) : Atom := { kind := .assertion a, quantifiable := false }

/-- A reference to a group by its name; `cur` is after the letter of the escape at `start`. -/
def namedReference (s : Settings) (start : Nat) (cur : Cursor) :
    Except SyntaxError (Atom × Cursor) :=
  match cur.skip? "<" with
  | none => fail start .invalidGroupName
  | some cur => do
    let (name, cur) ← groupName cur
    match s.declared.findIdx? (· == some name) with
    | some n => return (⟨.backReference n, true⟩, cur)
    | none => fail start (.undefinedGroupName name)

/-- A reference to a group by its number. If there is no such group, the digits are an octal escape
or stand for themselves. -/
def numberedReference (s : Settings) (start : Nat) (c : Char) (cur : Cursor) :
    Except SyntaxError (Atom × Cursor) :=
  match cur.numeral? 10 with
  | some (n, after) =>
    if n < s.declared.length then .ok (⟨.backReference n, true⟩, after)
    else if s.unicode then fail start (.invalidEscape c)
    else if Cursor.isDigit 8 c then
      let (value, after) := cur.octal
      .ok (literal s value, after)
    else .ok (literal s c.toNat, cur.drop 1)
  | none => fail start (.invalidEscape c)

/-- An escape outside of brackets; `cur` is after the backslash at `start`. -/
def atomEscape (s : Settings) (start : Nat) (cur : Cursor) :
    Except SyntaxError (Atom × Cursor) := do
  match cur.peek? with
  | none => fail start .trailingBackslash
  | some 'b' => return (assertionAtom .wordBoundary, cur.drop 1)
  | some 'B' => return (assertionAtom .notWordBoundary, cur.drop 1)
  | some c =>
    if c ≠ '0' ∧ c.isDigit then numberedReference s start c cur
    else if c = 'k' ∧ (s.unicode ∨ s.hasNamedGroups) then
      namedReference s start (cur.drop 1)
    else if s.unicode ∧ (c = 'p' ∨ c = 'P') then
      let (set, cur) ← property s (c = 'P') start (cur.drop 1)
      return (⟨.charClass (s.foldCase set), true⟩, cur)
    else match classEscape? c with
      | some set => return (⟨.charClass (s.foldCase set), true⟩, cur.drop 1)
      | none =>
        let (c, cur) ← characterEscape s.unicode false start cur
        return (literal s c, cur)

/-- The atom that begins with `c`, which comes next at `cur`. -/
def atom (s : Settings) (c : Char) (cur : Cursor) : Except SyntaxError (Atom × Cursor) := do
  let start := cur.pos
  let after := cur.drop 1
  match c with
  | '^' => return (assertionAtom .atStart, after)
  | '$' => return (assertionAtom .atEnd, after)
  | '\\' => atomEscape s start after
  | '.' => return (⟨.charClass (.dot s.dotAll), true⟩, after)
  | '[' =>
    let (set, cur) ← charClass s start after
    return (⟨.charClass set, true⟩, cur)
  | '*' | '+' | '?' => fail start .nothingToRepeat
  | '\x7b' =>
    if s.unicode || (bounds? cur).isSome then fail start .nothingToRepeat
    else return (literal s c.toNat, after)
  | '\x7d' | ']' =>
    if s.unicode then fail start .loneQuantifierBrackets
    else return (literal s c.toNat, after)
  | c => return (literal s c.toNat, after)

/-! ## State -/

/-- What an open parenthesis began. -/
inductive Opening where
  | plain
  | capture (number : Nat)
  | look (direction : Direction) (negated : Bool)

/-- The part of a disjunction read so far, the last items first. -/
structure Level where
  alternatives : List NodeId := []
  terms : List NodeId := []

/-- An open group: where it began, the number of the next capture group there, and what stands
before it in the group around it. -/
structure Frame where
  opening : Opening
  start : Nat
  firstGroup : Nat
  outer : Level

structure Reader where
  cursor : Cursor
  arena : Arena
  /-- The names of the capture groups numbered so far, group 0 included. -/
  names : Array (Option String) := #[none]
  level : Level := {}
  /-- The open groups, the innermost first. -/
  frames : List Frame := []

namespace Reader

/-- The number that the next capture group gets. -/
def nextGroup (r : Reader) : Nat := r.names.size

def grow {α : Type} (r : Reader) (g : Grow α) : Except CompileError (α × Reader) :=
  let ⟨cursor, arena, names, level, frames⟩ := r
  match g.run arena with
  | .ok (a, arena) => .ok (a, ⟨cursor, arena, names, level, frames⟩)
  | .error b => .error (.bailout b)

def ofReading {α : Type} : Except SyntaxError (α × Cursor) → Except CompileError (α × Cursor)
  | .ok found => .ok found
  | .error e => .error (.malformed e)

/-! ## Steps -/

/-- Ends the alternative that is being read. -/
def endAlternative (r : Reader) : Except CompileError Reader := do
  let (id, r) ← r.grow (Grow.sequence r.level.terms.reverse)
  return { r with level := { alternatives := id :: r.level.alternatives } }

/-- Goes on after the term `id` has been read, with the quantifier that may follow it. The capture
groups inside the term are those from `firstGroup` on. -/
def endTerm (s : Settings) (id : NodeId) (quantifiable : Bool) (firstGroup : Nat) (r : Reader) :
    Except CompileError Reader := do
  let start := r.cursor.pos
  let (q?, cursor) ← quantifier s r.cursor
  let r := { r with cursor }
  match q? with
  | none => return { r with level := { r.level with terms := id :: r.level.terms } }
  | some q =>
    if quantifiable then
      let (ids, r) ← r.grow (quantify q id firstGroup r.nextGroup)
      return { r with level := { r.level with terms := ids.reverse ++ r.level.terms } }
    else .error (.malformed ⟨start, .nothingToRepeat⟩)

/-- Begins a capture group; `cursor` is after what opens it. -/
def openCapture (s : Settings) (name : Option String) (cursor : Cursor) (r : Reader) :
    Except CompileError Reader :=
  let start := r.cursor.pos
  let number := r.nextGroup
  if s.maxCaptureGroups < number then
    .error (.bailout (Stage.parse.exceeded .captureGroups))
  else match name.filter fun n => r.names.contains (some n) with
    | some n => .error (.malformed ⟨start, .duplicateGroupName n⟩)
    | none => .ok { r with
        cursor
        names := r.names.push name
        level := {}
        frames := ⟨.capture number, start, number, r.level⟩ :: r.frames }

/-- Begins a group that does not capture; `cursor` is after what opens it. -/
def openOther (opening : Opening) (cursor : Cursor) (r : Reader) : Reader :=
  { r with
    cursor
    level := {}
    frames := ⟨opening, r.cursor.pos, r.nextGroup, r.level⟩ :: r.frames }

/-- Takes a parenthesis and what tells the kind of group that it opens. -/
def openGroup (s : Settings) (r : Reader) : Except CompileError Reader := do
  if s.maxNestingDepth ≤ r.frames.length then
    throw (.bailout (Stage.parse.exceeded .nestingDepth))
  let start := r.cursor.pos
  let cur := r.cursor.drop 1
  match cur.rest with
  | '?' :: '=' :: _ => return r.openOther (.look .ahead false) (cur.drop 2)
  | '?' :: '!' :: _ => return r.openOther (.look .ahead true) (cur.drop 2)
  | '?' :: '<' :: '=' :: _ => return r.openOther (.look .behind false) (cur.drop 3)
  | '?' :: '<' :: '!' :: _ => return r.openOther (.look .behind true) (cur.drop 3)
  | '?' :: ':' :: _ => return r.openOther .plain (cur.drop 2)
  | '?' :: '<' :: _ =>
    let (name, cur) ← ofReading (groupName (cur.drop 2))
    r.openCapture s (some name) cur
  | '?' :: _ => throw (.malformed ⟨start, .invalidGroup⟩)
  | _ => r.openCapture s none cur

/-- The node of a group that has been read, and whether it may be quantified. -/
def groupNode (s : Settings) (f : Frame) (alternatives : List NodeId) (nextGroup : Nat) :
    Grow (NodeId × Bool) := do
  let group (role : GroupRole) (innerStart : Nat) : Grow NodeId :=
    Grow.add (.group { alternatives, role, innerStart, innerEnd := nextGroup })
  match f.opening with
  | .plain => return (← group .plain f.firstGroup, true)
  | .capture number => return (← group (.capture number) (number + 1), true)
  | .look direction negated =>
    let id ← Grow.look direction negated (← group .plain f.firstGroup)
    return (id, direction = .ahead && !s.unicode)

/-- Takes a parenthesis that ends a group. -/
def closeGroup (s : Settings) (r : Reader) : Except CompileError Reader := do
  let r ← r.endAlternative
  match r.frames with
  | [] => throw (.malformed ⟨r.cursor.pos, .unexpectedParenthesis⟩)
  | f :: frames =>
    let ((id, quantifiable), r) ← r.grow (groupNode s f r.level.alternatives.reverse r.nextGroup)
    endTerm s id quantifiable f.firstGroup
      { r with cursor := r.cursor.drop 1, level := f.outer, frames }

/-- Takes what begins with `c`, which comes next. -/
def step (s : Settings) (c : Char) (r : Reader) : Except CompileError Reader := do
  match c with
  | '|' =>
    let r ← r.endAlternative
    return { r with cursor := r.cursor.drop 1 }
  | '(' => r.openGroup s
  | ')' => r.closeGroup s
  | c =>
    let (a, cursor) ← ofReading (atom s c r.cursor)
    let (id, r) ← r.grow (Grow.add a.kind)
    endTerm s id a.quantifiable r.nextGroup { r with cursor }

/-- Steps to the end of the pattern. Each step takes a character at least, so `fuel` is enough if it
is the length of the text that is left. -/
def run (s : Settings) : Nat → Reader → Except CompileError Reader
  | 0, r => .ok r
  | fuel + 1, r =>
    match r.cursor.peek? with
    | none => .ok r
    | some c => do run s fuel (← r.step s c)

/-- The tree, at the end of the pattern. -/
def finish (r : Reader) : Except CompileError Tree := do
  let r ← r.endAlternative
  match r.frames with
  | f :: _ => throw (.malformed ⟨f.start, .unclosedParenthesis⟩)
  | [] =>
    let (root, r) ← r.grow <| Grow.add <| .group {
      alternatives := r.level.alternatives.reverse
      role := .capture 0
      innerStart := 1
      innerEnd := r.nextGroup }
    match r.arena.finish root r.names with
    | .ok t => return t
    | .error b => throw (.bailout b)

end Reader

/-- The tree of a pattern. -/
def parse (pattern : String) (flags : Flags) (budget : Budget) (properties : PropertyLookup) :
    Except CompileError Tree := do
  let cursor := Cursor.ofString pattern
  let s := Settings.new flags budget properties (declaredGroups cursor.rest)
  let r ← Reader.run s cursor.rest.length { cursor, arena := { limit := budget.maxTreeSize } }
  r.finish

end PatternAutomata.Pattern
