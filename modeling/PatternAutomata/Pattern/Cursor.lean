/-!
# Reading a pattern from left to right

A `Cursor` is a position in a pattern together with what follows it. The readers here take numbers
and fixed texts; those that may fail to find what they look for return `none` and leave it to the
caller to go on from the old cursor.
-/

namespace PatternAutomata

/-- A position, counted in characters, and the text from there on. -/
structure Cursor where
  pos : Nat
  rest : List Char
deriving Inhabited

namespace Cursor

def ofString (s : String) : Cursor := ⟨0, s.toList⟩

def peek? (c : Cursor) : Option Char := c.rest.head?

/-- The cursor `n` characters further on. -/
def drop (c : Cursor) (n : Nat) : Cursor := ⟨c.pos + n, c.rest.drop n⟩

/-- The cursor after `text`, if that comes next. -/
def skip? (c : Cursor) (text : String) : Option Cursor :=
  if text.toList.isPrefixOf c.rest then some (c.drop text.length) else none

/-- The characters up to the first one that fails `p`, and the cursor there. -/
def takeWhile (c : Cursor) (p : Char → Bool) : List Char × Cursor :=
  let taken := c.rest.takeWhile p
  (taken, c.drop taken.length)

/-! ## Numbers -/

/-- The value of a digit in a base of at most 16. -/
def digitValue? (base : Nat) (c : Char) : Option Nat :=
  let value :=
    if '0' ≤ c ∧ c ≤ '9' then c.toNat - '0'.toNat
    else if 'a' ≤ c ∧ c ≤ 'f' then c.toNat - 'a'.toNat + 10
    else if 'A' ≤ c ∧ c ≤ 'F' then c.toNat - 'A'.toNat + 10
    else base
  if value < base then some value else none

def isDigit (base : Nat) (c : Char) : Bool := (digitValue? base c).isSome

/-- The number that digits spell, or `bound` if that is less. -/
def number (base bound : Nat) (digits : List Char) : Nat :=
  digits.foldl (fun n c => min (n * base + (digitValue? base c).getD 0) bound) 0

/-- Numbers that are larger count as this one. -/
def maxNumber : Nat := 0xFFFFFFFF

/-- As many digits as there are, at least one. -/
def numeral? (base : Nat) (c : Cursor) : Option (Nat × Cursor) :=
  match c.takeWhile (isDigit base) with
  | ([], _) => none
  | (digits, c) => some (number base maxNumber digits, c)

/-- Exactly `n` hexadecimal digits. -/
def hex? (n : Nat) (c : Cursor) : Option (Nat × Cursor) :=
  let digits := c.rest.take n
  if digits.length = n ∧ digits.all (isDigit 16) then some (number 16 maxNumber digits, c.drop n)
  else none

/-- At most `n` octal digits that go on from the number `value`, which stays below 256. -/
def octalFrom : Nat → Nat → Cursor → Nat × Cursor
  | 0, value, c => (value, c)
  | n + 1, value, c =>
    match c.peek?.bind (digitValue? 8) with
    | some d => if value * 8 + d < 256 then octalFrom n (value * 8 + d) (c.drop 1) else (value, c)
    | none => (value, c)

/-- At most three octal digits, as long as their value stays below 256. -/
def octal (c : Cursor) : Nat × Cursor := octalFrom 3 0 c

end Cursor

end PatternAutomata
