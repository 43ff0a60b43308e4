import PatternAutomata.Text.Quoted

/-!
# Flags

The flags of a pattern are written as a string of distinct letters, in any order.
-/

namespace PatternAutomata

inductive Flag where
  | global
  | ignoreCase
  | multiline
  | dotAll
  | unicode
  | sticky
deriving DecidableEq

namespace Flag

/-- All flags, in the order in which they are written. -/
def all : List Flag := [global, ignoreCase, multiline, dotAll, unicode, sticky]

def letter : Flag → Char
  | global => 'g'
  | ignoreCase => 'i'
  | multiline => 'm'
  | dotAll => 's'
  | unicode => 'u'
  | sticky => 'y'

def ofLetter? (c : Char) : Option Flag := all.find? (·.letter == c)

end Flag

/-- Which flags are set. -/
structure Flags where
  global : Bool := false
  ignoreCase : Bool := false
  multiline : Bool := false
  dotAll : Bool := false
  unicode : Bool := false
  sticky : Bool := false
deriving DecidableEq, Inhabited

inductive FlagsError where
  | invalid (letter : Char)
  | duplicate (letter : Char)
deriving DecidableEq

def FlagsError.message : FlagsError → String
  | .invalid c => "invalid flag " ++ Quoted.ofChar c
  | .duplicate c => "duplicate flag " ++ Quoted.ofChar c

namespace Flags

def contains (f : Flags) : Flag → Bool
  | .global => f.global
  | .ignoreCase => f.ignoreCase
  | .multiline => f.multiline
  | .dotAll => f.dotAll
  | .unicode => f.unicode
  | .sticky => f.sticky

def set (f : Flags) : Flag → Flags
  | .global => { f with global := true }
  | .ignoreCase => { f with ignoreCase := true }
  | .multiline => { f with multiline := true }
  | .dotAll => { f with dotAll := true }
  | .unicode => { f with unicode := true }
  | .sticky => { f with sticky := true }

/-- Sets the flag that `c` stands for, which must not be set yet. -/
def add (f : Flags) (c : Char) : Except FlagsError Flags :=
  match Flag.ofLetter? c with
  | none => .error (.invalid c)
  | some flag => if f.contains flag then .error (.duplicate c) else .ok (f.set flag)

def parse (s : String) : Except FlagsError Flags := s.toList.foldlM add {}

def render (f : Flags) : String := String.ofList ((Flag.all.filter f.contains).map Flag.letter)

end Flags

end PatternAutomata
