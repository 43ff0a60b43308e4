import PatternAutomata.CodePoint.Classes
import PatternAutomata.Pattern.Cursor
import PatternAutomata.Pattern.Settings

/-!
# Escapes

What may follow a backslash, inside and outside of brackets. With the unicode flag an escape that
means nothing is an error; without it, it stands for the escaped character.
-/

namespace PatternAutomata.Pattern

def fail {α : Type} (position : Nat) (fault : SyntaxFault) : Except SyntaxError α :=
  .error { position, fault }

/-! ## Names and sets -/

def isNameStart (c : Char) : Bool := c == '$' || c == '_' || isAlphabetic c

/-- Joiners may stand inside a name but not begin it. -/
def isNamePart (c : Char) : Bool :=
  c == '$' || c == '_' || c == '\u200C' || c == '\u200D' || isAlphanumeric c

/-- A group name and the bracket that ends it. -/
def groupName (cur : Cursor) : Except SyntaxError (String × Cursor) :=
  let (name, after) := cur.takeWhile isNamePart
  match name, after.skip? ">" with
  | c :: _, some after =>
    if isNameStart c then .ok (String.ofList name, after) else fail cur.pos .invalidGroupName
  | _, _ => fail cur.pos .invalidGroupName

/-- The class that a letter after a backslash names. -/
def classEscape? : Char → Option CodePointSet
  | 'd' => some .digits
  | 'D' => some CodePointSet.digits.compl
  | 's' => some .whiteSpace
  | 'S' => some CodePointSet.whiteSpace.compl
  | 'w' => some .wordChars
  | 'W' => some CodePointSet.wordChars.compl
  | _ => none

/-- The text up to the first `=`, and what follows that. -/
def splitProperty (text : List Char) : String × Option String :=
  match text.dropWhile (· != '=') with
  | [] => (String.ofList text, none)
  | _ :: value => (String.ofList (text.takeWhile (· != '=')), some (String.ofList value))

/-- A property in braces, or the complement of one. -/
def property (s : Settings) (negated : Bool) (start : Nat) (cur : Cursor) :
    Except SyntaxError (CodePointSet × Cursor) :=
  match cur.skip? "\x7b" with
  | none => fail start (.invalidEscape (if negated then 'P' else 'p'))
  | some cur =>
    let (text, after) := cur.takeWhile (· != '\x7d')
    let (name, value) := splitProperty text
    match after.skip? "\x7d", s.properties name value with
    | some after, some set => .ok (if negated then set.compl else set, after)
    | _, _ => fail start (.invalidPropertyName (String.ofList text))

/-! ## Characters -/

def isSyntaxChar (c : Char) : Bool := "^$\\.*+?()[]\x7b\x7d|/".toList.contains c

/-- A pair of surrogates as one code point. -/
def joinSurrogates (lead trail : Nat) : Nat := 0x10000 + (lead - 0xD800) * 0x400 + (trail - 0xDC00)

/-- A code point in braces. -/
def bracedCodePoint? (cur : Cursor) : Option (Nat × Cursor) := do
  let (value, cur) ← (← cur.skip? "\x7b").numeral? 16
  let cur ← cur.skip? "\x7d"
  if value ≤ maxCodePoint then some (value, cur) else none

/-- The second half of a pair of surrogates, written as an escape of its own. -/
def trailEscape? (cur : Cursor) : Option (Nat × Cursor) := do
  let (trail, cur) ← (← cur.skip? "\\u").hex? 4
  if 0xDC00 ≤ trail ∧ trail < 0xE000 then some (trail, cur) else none

/-- What follows `\u`: four digits, and with the unicode flag also any number of digits in braces,
or a pair of surrogates in two escapes. -/
def unicodeEscape? (unicode : Bool) (cur : Cursor) : Option (Nat × Cursor) :=
  if unicode ∧ cur.peek? = some '\x7b' then bracedCodePoint? cur
  else match cur.hex? 4 with
    | none => none
    | some (lead, cur) =>
      match trailEscape? cur with
      | some (trail, after) =>
        if unicode ∧ 0xD800 ≤ lead ∧ lead < 0xDC00 then some (joinSurrogates lead trail, after)
        else some (lead, cur)
      | none => some (lead, cur)

/-- What follows `\c`: a letter, and in brackets also a digit or an underscore. Without any of
these, and without the unicode flag, the backslash stands for itself, and `c` is yet to be read. -/
def controlEscape (unicode inClass : Bool) (start : Nat) (cur : Cursor) :
    Except SyntaxError (Nat × Cursor) :=
  let isControl (l : Char) : Bool := l.isAlpha || inClass && !unicode && (l.isDigit || l == '_')
  match (cur.drop 1).peek?.filter isControl with
  | some l => .ok (l.toNat % 32, cur.drop 2)
  | none => if unicode then fail start (.invalidEscape 'c') else .ok ('\\'.toNat, cur)

/-- An escape that stands for one code point; `cur` is after the backslash at `start`. -/
def characterEscape (unicode inClass : Bool) (start : Nat) (cur : Cursor) :
    Except SyntaxError (Nat × Cursor) :=
  match cur.peek? with
  | none => fail start .trailingBackslash
  | some c =>
    let after := cur.drop 1
    match c with
    | 'f' => .ok (0x0C, after)
    | 'n' => .ok (0x0A, after)
    | 'r' => .ok (0x0D, after)
    | 't' => .ok (0x09, after)
    | 'v' => .ok (0x0B, after)
    | 'c' => controlEscape unicode inClass start cur
    | 'x' =>
      match after.hex? 2 with
      | some found => .ok found
      | none => if unicode then fail start (.invalidEscape 'x') else .ok ('x'.toNat, after)
    | 'u' =>
      match unicodeEscape? unicode after with
      | some found => .ok found
      | none => if unicode then fail start .invalidUnicodeEscape else .ok ('u'.toNat, after)
    | c =>
      if c = '0' ∧ !after.peek?.any Char.isDigit then .ok (0, after)
      else if !unicode ∧ Cursor.isDigit 8 c then .ok cur.octal
      else if unicode ∧ !isSyntaxChar c ∧ !(inClass ∧ c = '-') then fail start (.invalidEscape c)
      else .ok (c.toNat, after)

end PatternAutomata.Pattern
