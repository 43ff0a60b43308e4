/-!
# Ranges of code points

A code point is a number; the characters are the numbers up to `maxCodePoint` other than the
surrogates, but ranges may also reach beyond. A range holds its two ends and is never empty.
-/

namespace PatternAutomata

/-- The largest code point of a character. -/
def maxCodePoint : Nat := 0x10FFFF

/-- The code points from `lo` through `hi`. -/
structure CodePointRange where
  lo : Nat
  hi : Nat
  lo_le_hi : lo ≤ hi := by omega
deriving DecidableEq

namespace CodePointRange

def single (c : Nat) : CodePointRange := ⟨c, c, Nat.le_refl c⟩

instance : Inhabited CodePointRange := ⟨single 0⟩

/-- The range with the ends `a` and `b`, given in either order. -/
def between (a b : Nat) : CodePointRange :=
  if h : a ≤ b then { lo := a, hi := b } else { lo := b, hi := a }

/-- The range from `lo` through `hi`, if that is a range of characters' code points. -/
def ofBounds? (lo hi : Nat) : Option CodePointRange :=
  if h : lo ≤ hi ∧ hi ≤ maxCodePoint then some { lo, hi } else none

def contains (r : CodePointRange) (c : Nat) : Bool := r.lo ≤ c && c ≤ r.hi

def isSingle (r : CodePointRange) : Bool := r.lo == r.hi

def size (r : CodePointRange) : Nat := r.hi - r.lo + 1

/-- The common part of two ranges, if there is one. -/
def inter? (r s : CodePointRange) : Option CodePointRange :=
  if h : max r.lo s.lo ≤ min r.hi s.hi then some ⟨max r.lo s.lo, min r.hi s.hi, h⟩ else none

/-- The least range that covers both. -/
def span (r s : CodePointRange) : CodePointRange where
  lo := min r.lo s.lo
  hi := max r.hi s.hi
  lo_le_hi := by have := r.lo_le_hi; omega

theorem contains_iff {r : CodePointRange} {c : Nat} :
    r.contains c = true ↔ r.lo ≤ c ∧ c ≤ r.hi := by
  simp [contains]

theorem inter?_eq_some_iff {r s t : CodePointRange} :
    r.inter? s = some t ↔ t.lo = max r.lo s.lo ∧ t.hi = min r.hi s.hi := by
  have := t.lo_le_hi
  cases t
  simp only [inter?]
  split
  · simp [eq_comm]
  · simp_all
    omega

theorem inter?_eq_none_iff {r s : CodePointRange} :
    r.inter? s = none ↔ min r.hi s.hi < max r.lo s.lo := by
  unfold inter?
  split <;> simp only [reduceCtorEq, false_iff, true_iff] <;> omega

end CodePointRange

end PatternAutomata
