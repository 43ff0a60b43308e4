import PatternAutomata.CodePoint.PropertyTable

/-!
# Quoted text

How messages show a character or a text from the pattern: between quotes, with escapes for the
quote itself, the backslash, the usual control characters, and every character that would not
show up by itself.
-/

namespace PatternAutomata.Quoted

/-- Whether a character leaves no mark of its own: controls, formats, unassigned and private
characters, separators other than the blank, and marks that combine with their neighbour. -/
def isHidden (c : Char) : Bool :=
  c != ' ' && (CharacterData.control.contains c.toNat || CharacterData.format.contains c.toNat ||
    CharacterData.unassigned.contains c.toNat || CharacterData.separator.contains c.toNat ||
    CharacterData.combiningMark.contains c.toNat || isPrivate c.toNat)
where
  isPrivate (c : Nat) : Bool :=
    0xE000 ≤ c && c ≤ 0xF8FF || 0xF0000 ≤ c && c ≤ 0xFFFFD || 0x100000 ≤ c && c ≤ 0x10FFFD

/-- A hidden character as its number in hexadecimal digits. -/
def hexEscape (c : Char) : String :=
  "\\u\x7b" ++ String.ofList (Nat.toDigits 16 c.toNat) ++ "\x7d"

/-- One character as it stands between two quotes `quote`. -/
def escape (quote c : Char) : String :=
  if c == quote then "\\" ++ c.toString
  else match c with
    | '\x00' => "\\0"
    | '\t' => "\\t"
    | '\r' => "\\r"
    | '\n' => "\\n"
    | '\\' => "\\\\"
    | c => if isHidden c then hexEscape c else c.toString

def ofChar (c : Char) : String := "'" ++ escape '\'' c ++ "'"

def ofString (s : String) : String := "\"" ++ String.join (s.toList.map (escape '"')) ++ "\""

end PatternAutomata.Quoted
