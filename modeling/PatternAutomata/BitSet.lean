import PatternAutomata.Interner

/-!
# Sets of small numbers

A `BitSet` is a finite set of natural numbers, kept as the bits of one number, so that equal sets
are equal values and can be looked up. `mem_insert`, `mem_erase`, `mem_union`, `mem_sdiff` and
`mem_toList` say what each operation does to the members.
-/

namespace PatternAutomata

/-- A finite set of numbers: `i` is a member when bit `i` of `mask` is set. -/
structure BitSet where
  mask : Nat
deriving DecidableEq, Inhabited

instance : Coded BitSet := ⟨BitSet.mask⟩

namespace BitSet

def empty : BitSet := ⟨0⟩

instance : EmptyCollection BitSet := ⟨empty⟩

def contains (s : BitSet) (i : Nat) : Bool := s.mask.testBit i

instance : Membership Nat BitSet := ⟨fun s i => s.contains i = true⟩

instance (s : BitSet) (i : Nat) : Decidable (i ∈ s) :=
  inferInstanceAs (Decidable (s.contains i = true))

def isEmpty (s : BitSet) : Bool := s.mask == 0

def singleton (i : Nat) : BitSet := ⟨1 <<< i⟩

def insert (s : BitSet) (i : Nat) : BitSet := ⟨s.mask ||| 1 <<< i⟩

def union (s t : BitSet) : BitSet := ⟨s.mask ||| t.mask⟩

def inter (s t : BitSet) : BitSet := ⟨s.mask &&& t.mask⟩

/-- The members of `s` outside `t`. -/
def sdiff (s t : BitSet) : BitSet := ⟨s.mask ^^^ (s.mask &&& t.mask)⟩

def erase (s : BitSet) (i : Nat) : BitSet := s.sdiff (singleton i)

/-- The numbers `lo, …, hi - 1`. -/
def ofRange (lo hi : Nat) : BitSet := ⟨(1 <<< (hi - lo) - 1) <<< lo⟩

/-- The members in ascending order. -/
def toList (s : BitSet) : List Nat := (List.range (s.mask.log2 + 1)).filter s.contains

/-! ## Members -/

theorem ext {s t : BitSet} (h : ∀ i, s.contains i = t.contains i) : s = t := by
  cases s; cases t
  exact congrArg BitSet.mk (Nat.eq_of_testBit_eq h)

theorem mem_def {s : BitSet} {i : Nat} : i ∈ s ↔ s.contains i = true := Iff.rfl

@[simp] theorem contains_empty (i : Nat) : empty.contains i = false := Nat.zero_testBit i

@[simp] theorem contains_singleton (i j : Nat) : (singleton i).contains j = decide (i = j) := by
  simp [contains, singleton, Nat.shiftLeft_eq, Nat.testBit_two_pow]

@[simp] theorem contains_union (s t : BitSet) (i : Nat) :
    (s.union t).contains i = (s.contains i || t.contains i) :=
  Nat.testBit_or ..

@[simp] theorem contains_inter (s t : BitSet) (i : Nat) :
    (s.inter t).contains i = (s.contains i && t.contains i) :=
  Nat.testBit_and ..

@[simp] theorem contains_sdiff (s t : BitSet) (i : Nat) :
    (s.sdiff t).contains i = (s.contains i && !t.contains i) := by
  simp only [contains, sdiff, Nat.testBit_xor, Nat.testBit_and]
  cases s.mask.testBit i <;> cases t.mask.testBit i <;> rfl

@[simp] theorem contains_insert (s : BitSet) (i j : Nat) :
    (s.insert i).contains j = (s.contains j || decide (i = j)) := by
  rw [← contains_singleton, ← contains_union]
  rfl

theorem contains_insert_iff {s : BitSet} {i j : Nat} :
    (s.insert i).contains j = true ↔ s.contains j = true ∨ j = i := by
  rw [contains_insert, Bool.or_eq_true, decide_eq_true_eq, eq_comm (a := i)]

@[simp] theorem contains_erase (s : BitSet) (i j : Nat) :
    (s.erase i).contains j = (s.contains j && !decide (i = j)) := by
  simp [erase]

@[simp] theorem contains_ofRange (lo hi i : Nat) :
    (ofRange lo hi).contains i = (decide (lo ≤ i) && decide (i < hi)) := by
  have : 1 <<< (hi - lo) = 2 ^ (hi - lo) := by rw [Nat.shiftLeft_eq, Nat.one_mul]
  simp only [contains, ofRange, this, Nat.testBit_shiftLeft, Nat.testBit_two_pow_sub_one]
  by_cases h : lo ≤ i
  · simp only [h, decide_true, Bool.true_and, decide_eq_decide]
    omega
  · simp [h]

theorem mem_toList {s : BitSet} {i : Nat} : i ∈ s.toList ↔ i ∈ s := by
  simp only [toList, List.mem_filter, List.mem_range, mem_def, and_iff_right_iff_imp]
  intro h
  have hle : 2 ^ i ≤ s.mask := Nat.ge_two_pow_of_testBit h
  have hne : s.mask ≠ 0 := fun h0 => by simp [h0] at hle
  exact Nat.lt_succ_of_le ((Nat.le_log2 hne).mpr hle)

end BitSet

end PatternAutomata
