import PatternAutomata.Proofs.Pattern.Limits

/-!
# Exact budgets

Without limits a pattern is read in one way, to a tree or to its first fault. A budget leads to that
tree exactly if the nodes and the groups of the tree, the groups that are open at once and the numbers
in braces keep to its limits.
-/

namespace PatternAutomata

/-- The tree of a pattern keeps to the limits, and so does what counts in the pattern. -/
structure Budget.Allows (b : Budget) (t : Tree) (ls : List Lexeme) : Prop where
  nodes : t.size ≤ b.maxTreeSize
  groups : t.groupCount - 1 ≤ b.maxCaptureGroups
  depth : Lexeme.deepest 0 ls ≤ b.maxNestingDepth
  counted : ∀ n, .counted n ∈ ls → n ≤ b.maxCountedRepetition

theorem Budget.allows_iff_fitsIn {b : Budget} {t : Tree} {ls : List Lexeme} :
    b.Allows t ls ↔ ({
      nodes := t.size
      iterations := Lexeme.mostCounted ls
      groups := t.groupCount - 1
      depth := Lexeme.deepest 0 ls } : Usage).FitsIn b := by
  constructor
  · rintro ⟨hnodes, hgroups, hdepth, hcounted⟩
    exact ⟨hnodes, (Lexeme.mostCounted_le_iff ls).mpr hcounted, hgroups, hdepth⟩
  · rintro ⟨hnodes, hiterations, hgroups, hdepth⟩
    exact ⟨hnodes, hgroups, hdepth, (Lexeme.mostCounted_le_iff ls).mp hiterations⟩

end PatternAutomata
