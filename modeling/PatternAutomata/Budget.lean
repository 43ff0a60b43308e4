/-!
# Budgets

Limits on what compiling a pattern may use. Whoever builds a structure checks the limit on it. Most
limits end the compilation; those of node splitting and of the trace finder only give up that
refinement.
-/

namespace PatternAutomata

structure Budget where
  maxTreeSize : Nat := 4000
  maxNfaSize : Nat := 3500
  maxDfaSize : Nat := 3000
  maxSplitDfaSize : Nat := 10000
  maxCountedRepetition : Nat := 40
  maxCaptureGroups : Nat := 127
  maxNestingDepth : Nat := 64
  maxThreads : Nat := 255
  maxTraceResults : Nat := 254
  splitNodes : Bool := false
  traceCaptures : Bool := true
deriving DecidableEq, Inhabited

namespace Budget

/-- The largest size that any structure may be allowed to have. -/
def maxIndex : Nat := 32767

/-- Lowers every limit to the largest value that is supported for it. -/
def clamp (b : Budget) : Budget where
  maxTreeSize := min b.maxTreeSize maxIndex
  maxNfaSize := min b.maxNfaSize maxIndex
  maxDfaSize := min b.maxDfaSize maxIndex
  maxSplitDfaSize := min b.maxSplitDfaSize maxIndex
  maxCountedRepetition := b.maxCountedRepetition
  maxCaptureGroups := min b.maxCaptureGroups 127
  maxNestingDepth := min b.maxNestingDepth 128
  maxThreads := min b.maxThreads 255
  maxTraceResults := min b.maxTraceResults 254
  splitNodes := b.splitNodes
  traceCaptures := b.traceCaptures

/-- No limit of the first budget exceeds that of the second one, and both ask for the same
refinements. -/
structure AtMost (b b' : Budget) : Prop where
  maxTreeSize : b.maxTreeSize ≤ b'.maxTreeSize
  maxNfaSize : b.maxNfaSize ≤ b'.maxNfaSize
  maxDfaSize : b.maxDfaSize ≤ b'.maxDfaSize
  maxSplitDfaSize : b.maxSplitDfaSize ≤ b'.maxSplitDfaSize
  maxCountedRepetition : b.maxCountedRepetition ≤ b'.maxCountedRepetition
  maxCaptureGroups : b.maxCaptureGroups ≤ b'.maxCaptureGroups
  maxNestingDepth : b.maxNestingDepth ≤ b'.maxNestingDepth
  maxThreads : b.maxThreads ≤ b'.maxThreads
  maxTraceResults : b.maxTraceResults ≤ b'.maxTraceResults
  splitNodes : b.splitNodes = b'.splitNodes
  traceCaptures : b.traceCaptures = b'.traceCaptures

namespace AtMost

variable {b b' : Budget}

theorem refl (b : Budget) : b.AtMost b := by
  constructor
  all_goals first
    | exact Nat.le_refl _
    | rfl

theorem clamp (h : b.AtMost b') : b.clamp.AtMost b'.clamp := by
  obtain ⟨h1, h2, h3, h4, h5, h6, h7, h8, h9, h10, h11⟩ := h
  constructor
  all_goals
    simp only [Budget.clamp]
    omega

end AtMost

end Budget

end PatternAutomata
