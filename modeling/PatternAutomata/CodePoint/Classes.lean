import PatternAutomata.CodePoint.Set

/-!
# Named character classes

The classes behind the escapes for digits, word characters and white space, and behind the dot and
the line anchors.
-/

namespace PatternAutomata.CodePointSet

def digits : CodePointSet := ofRanges [.between 0x30 0x39]

def wordChars : CodePointSet :=
  ofRanges [.between 0x30 0x39, .between 0x41 0x5A, .single 0x5F, .between 0x61 0x7A]

def whiteSpace : CodePointSet :=
  ofRanges [.between 0x09 0x0D, .single 0x20, .single 0xA0, .single 0x1680, .between 0x2000 0x200A,
    .between 0x2028 0x2029, .single 0x202F, .single 0x205F, .single 0x3000, .single 0xFEFF]

def lineTerminators : CodePointSet :=
  ofRanges [.single 0x0A, .single 0x0D, .between 0x2028 0x2029]

/-- What the dot matches: everything if `dotAll`, otherwise all but line terminators. -/
def dot (dotAll : Bool) : CodePointSet := if dotAll then full else lineTerminators.compl

end PatternAutomata.CodePointSet
