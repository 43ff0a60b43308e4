import PatternAutomata.CodePoint.PropertyTable

/-!
# Character properties by name

A pattern names a property either alone, such as a general category, a script or a binary property,
or as a value of one of three keys. Keys are matched exactly, all other names loosely: without
regard to case, underscores and a leading `is`.
-/

namespace PatternAutomata

/-- What a property name and an optional value stand for, if anything. -/
abbrev PropertyLookup := String → Option String → Option CodePointSet

namespace Property

open CharacterData

/-- The spellings of a property, in the form that loose matching compares. -/
abbrev Named := List String × CodePointSet

def generalCategories : List Named :=
  [(["any"], .full), (["ascii"], ascii), (["assigned"], assigned), (["l", "letter"], letter),
   (["lc", "casedletter"], casedLetter), (["lu", "uppercaseletter"], uppercaseLetter),
   (["lt", "titlecaseletter"], titlecaseLetter), (["n", "number"], number),
   (["nd", "decimalnumber", "digit"], decimalNumber), (["p", "punctuation", "punct"], punctuation),
   (["pc", "connectorpunctuation"], connectorPunctuation),
   (["sc", "currencysymbol"], currencySymbol), (["cc", "control", "cntrl"], control),
   (["cf", "format"], format), (["cn", "unassigned"], unassigned), (["z", "separator"], separator),
   (["zl", "lineseparator"], lineSeparator), (["zp", "paragraphseparator"], paragraphSeparator),
   (["zs", "spaceseparator"], spaceSeparator)]

def scripts : List Named :=
  [(["greek", "grek"], greek), (["thai"], thai)]

/-- Each script with the characters that it shares with others. -/
def scriptExtensions : List Named :=
  [(["greek", "grek"], greek.union greekExtension), (["thai"], thai.union thaiExtension)]

def binaryProperties : List Named :=
  [(["alphabetic", "alpha"], alphabetic), (["asciihexdigit", "ahex"], asciiHexDigit),
   (["bidimirrored", "bidim"], bidiMirrored), (["deprecated", "dep"], deprecated),
   (["emoji"], emoji), (["hexdigit", "hex"], hexDigit), (["joincontrol", "joinc"], joinControl),
   (["noncharactercodepoint", "nchar"], noncharacter),
   (["patternwhitespace", "patws"], patternWhiteSpace), (["quotationmark", "qmark"], quotationMark),
   (["radical"], radical), (["regionalindicator", "ri"], regionalIndicator),
   (["uppercase", "upper"], uppercase), (["variationselector", "vs"], variationSelector),
   (["whitespace", "wspace", "space"], whiteSpace), (["xidstart", "xids"], xidStart)]

/-- The form in which names are compared. -/
def looseForm (name : String) : String :=
  let letters := match name.toList.map Char.toLower with
    | 'i' :: 's' :: rest => rest
    | cs => cs
  String.ofList (letters.filter (· != '_'))

def find? (table : List Named) (name : String) : Option CodePointSet :=
  (table.find? fun p => p.1.contains (looseForm name)).map (·.2)

/-- Names consist of ASCII letters, digits and underscores. -/
def isName (s : String) : Bool :=
  !s.isEmpty && s.toList.all fun c => c.isAlphanum || c == '_'

/-- The values that a key can have. -/
def valuesOf? (key : String) : Option (List Named) :=
  if key = "General_Category" ∨ key = "gc" then some generalCategories
  else if key = "Script" ∨ key = "sc" then some scripts
  else if key = "Script_Extensions" ∨ key = "scx" then some scriptExtensions
  else none

/-- The standard properties. -/
def standard : PropertyLookup
  | name, none =>
    if isName name then find? (binaryProperties ++ generalCategories ++ scripts) name else none
  | name, some value =>
    if isName name && isName value then (valuesOf? name).bind (find? · value) else none

end Property

/-! ## Single characters -/

def isAlphabetic (c : Char) : Bool := CharacterData.alphabetic.contains c.toNat

def isAlphanumeric (c : Char) : Bool := isAlphabetic c || CharacterData.number.contains c.toNat

end PatternAutomata
