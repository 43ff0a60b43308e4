import PatternAutomata.CodePoint.Classes

/-!
# Guards

Anchors and word boundaries at the current position restrict the next character. A `Guard` collects
these restrictions along a path.
-/

namespace PatternAutomata

structure Guard where
  /-- No character follows. -/
  nextEnd : Bool := false
  /-- The input ends or a line terminator follows. -/
  nextLineEnd : Bool := false
  /-- A word character follows. -/
  nextWord : Bool := false
  /-- No word character follows. -/
  nextNotWord : Bool := false
deriving DecidableEq, Inhabited

namespace Guard

/-- Both restrictions. -/
def union (g h : Guard) : Guard where
  nextEnd := g.nextEnd || h.nextEnd
  nextLineEnd := g.nextLineEnd || h.nextLineEnd
  nextWord := g.nextWord || h.nextWord
  nextNotWord := g.nextNotWord || h.nextNotWord

/-- The members of `s` if `restricted`, otherwise everything. -/
def restriction (restricted : Bool) (s : CodePointSet) : CodePointSet :=
  if restricted then s else .full

/-- The characters that may follow. -/
def allowed (g : Guard) : CodePointSet :=
  if g.nextEnd then .empty
  else
    let lineEnd := restriction g.nextLineEnd .lineTerminators
    let word := restriction g.nextWord .wordChars
    let notWord := restriction g.nextNotWord CodePointSet.wordChars.compl
    (lineEnd.inter word).inter notWord

/-- Whether the input may end. -/
def allowsEnd (g : Guard) : Bool := !g.nextWord

end Guard

end PatternAutomata
