import PatternAutomata.Compile

/-!
# A cache of compiled patterns

The cache keeps what came of compiling a pattern, errors included. When it holds more than its
capacity, the patterns that were asked for least recently are dropped. The pattern that is being
compiled is never dropped, so with capacity zero the last one stays until the next is asked for.
-/

namespace PatternAutomata

/-- The outcome of a compilation. Each compilation has its own number. -/
structure Compilation where
  number : Nat
  result : Except CompileError Matcher

structure PatternCache where
  capacity : Nat := 1000
  budget : Budget := {}
  /-- The patterns with their flags, the one asked for last at the end. -/
  entries : List ((String × Flags) × Compilation) := []
  /-- How many compilations there have been. -/
  compilations : Nat := 0

namespace PatternCache

def new (capacity : Nat) (budget : Budget) : PatternCache := { capacity, budget }

def size (c : PatternCache) : Nat := c.entries.length

/-- Drops from the front what is too much if `others` come in addition. -/
def fit {α : Type} (capacity others : Nat) (entries : List α) : List α :=
  entries.drop (entries.length + others - capacity)

/-- What came of compiling the pattern, which is compiled now unless it is in the cache. -/
def get (c : PatternCache) (pattern : String) (flags : Flags) : Compilation × PatternCache :=
  let key := (pattern, flags)
  let others := c.entries.filter (·.1 != key)
  match c.entries.lookup key with
  | some found => (found, { c with entries := fit c.capacity 0 (others ++ [(key, found)]) })
  | none =>
    let result := compile pattern flags c.budget Property.standard
    let made := { number := c.compilations, result }
    (made, { c with
      entries := fit c.capacity 1 others ++ [(key, made)]
      compilations := c.compilations + 1 })

def clear (c : PatternCache) : PatternCache := { c with entries := [] }

end PatternCache

end PatternAutomata
