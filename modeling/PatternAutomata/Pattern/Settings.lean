import PatternAutomata.Budget
import PatternAutomata.Error
import PatternAutomata.CodePoint.Case
import PatternAutomata.CodePoint.Property

/-!
# What reading a pattern depends on

Besides the text these are some of the flags and of the limits, the known character properties, and
the capture groups that the pattern declares. The last are found by a scan of their own, because an
escape may refer to a group that stands further on.
-/

namespace PatternAutomata

/-- A scan for capture groups; `inClass` holds between brackets. -/
def declaredFrom (inClass : Bool) : List Char → List (Option String)
  | [] => []
  | '\\' :: _ :: rest => declaredFrom inClass rest
  | '[' :: rest => declaredFrom true rest
  | ']' :: rest => declaredFrom false rest
  | '(' :: rest =>
    if inClass then declaredFrom inClass rest
    else match rest with
      | '?' :: '<' :: '=' :: _ => declaredFrom inClass rest
      | '?' :: '<' :: '!' :: _ => declaredFrom inClass rest
      | '?' :: '<' :: name =>
        some (String.ofList (name.takeWhile (· != '>'))) :: declaredFrom inClass rest
      | '?' :: _ => declaredFrom inClass rest
      | _ => none :: declaredFrom inClass rest
  | _ :: rest => declaredFrom inClass rest

/-- The names of the declared capture groups by number, from group 0 on. -/
def declaredGroups (text : List Char) : List (Option String) := none :: declaredFrom false text

structure Settings where
  ignoreCase : Bool
  dotAll : Bool
  unicode : Bool
  maxCountedRepetition : Nat
  maxCaptureGroups : Nat
  maxNestingDepth : Nat
  properties : PropertyLookup
  declared : List (Option String)

namespace Settings

def new (flags : Flags) (budget : Budget) (properties : PropertyLookup)
    (declared : List (Option String)) : Settings where
  ignoreCase := flags.ignoreCase
  dotAll := flags.dotAll
  unicode := flags.unicode
  maxCountedRepetition := budget.maxCountedRepetition
  maxCaptureGroups := budget.maxCaptureGroups
  maxNestingDepth := budget.maxNestingDepth
  properties
  declared

def hasNamedGroups (s : Settings) : Bool := s.declared.any (·.isSome)

/-- What a class stands for under the flags. -/
def foldCase (s : Settings) (set : CodePointSet) : CodePointSet :=
  if s.ignoreCase then set.caseClosure s.unicode else set

end Settings

end PatternAutomata
