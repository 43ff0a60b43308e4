import PatternAutomata.CodePoint.Set
import PatternAutomata.CodePoint.CaseTable

/-!
# Case equivalence

Two letters that differ only in case are equivalent. There are two such relations: without the
unicode flag, letters are equivalent if they have the same upper-case form; with it, if they have
the same simple folding. `CodePointSet.caseClosure` adds to a set all letters equivalent to a
member.
-/

namespace PatternAutomata

/-- The code point `c` stands for when case is ignored, without the unicode flag. -/
def upperForm (c : Nat) : Nat :=
  match upperRuns.find? (·.covers c) with
  | some r => r.image c
  | none => c

/-- A case relation: each letter that is equivalent to another one, with a form that exactly the
equivalent letters share. -/
abbrev CaseForms := List (Nat × Nat)

/-- The equivalence by upper-case form. A letter that is the form of others is its own form. -/
def upperForms : CaseForms :=
  let moved := upperRuns.flatMap fun r => r.members.map fun c => (c, r.image c)
  moved ++ moved.map fun (_, u) => (u, u)

/-- The equivalence by simple folding. -/
def foldForms : CaseForms :=
  (foldRuns.flatMap fun r => r.members.flatMap fun c => [(c, c), (r.image c, c)]) ++
    foldClasses.flatMap fun cls => cls.map fun c => (c, cls.headD c)

namespace CodePointSet

/-- The letters with an equivalent in `s`. -/
def equivalents (forms : CaseForms) (s : CodePointSet) : CodePointSet :=
  let hit := ofRanges ((forms.filter (s.contains ·.1)).map (.single ·.2))
  ofRanges ((forms.filter (hit.contains ·.2)).map (.single ·.1))

/-- The characters of one range, on both sides of the surrogates; of a range that ends beyond
`maxCodePoint` only those before the surrogates. -/
def charParts (r : CodePointRange) : List CodePointRange :=
  (if h : r.lo ≤ min r.hi 0xD7FF then [⟨r.lo, min r.hi 0xD7FF, h⟩] else []) ++
    if h : max r.lo 0xE000 ≤ r.hi ∧ r.hi ≤ maxCodePoint then [⟨max r.lo 0xE000, r.hi, h.1⟩] else []

/-- The set with all letters that differ from a member only in case. -/
def caseClosure (unicode : Bool) (s : CodePointSet) : CodePointSet :=
  s.union <|
    if unicode then equivalents foldForms (ofRanges (s.ranges.flatMap charParts))
    else equivalents upperForms s

end CodePointSet

end PatternAutomata
