import PatternAutomata.Interner

/-!
# What interning changes

Interning a value keeps all numbers given before, and adds at most the value itself.
-/

namespace PatternAutomata.Interner

variable {α : Type} [DecidableEq α] [Coded α] {t : Interner α} {a b : α} {i j : Nat}

theorem get?_eq_none (h : t.size ≤ i) : t.get? i = none := by
  rw [get?, Array.getElem?_eq_none_iff]
  exact h

theorem lt_size (h : t.get? i = some a) : i < t.size := by
  refine Nat.lt_of_not_le fun hi => ?_
  rw [get?_eq_none hi] at h
  cases h

theorem get?_inj (hi : t.get? i = some a) (hj : t.get? j = some a) : i = j :=
  Option.some_inj.mp ((find?_eq_some_iff.mpr hi).symm.trans (find?_eq_some_iff.mpr hj))

/-- A value without a number gets the next one. -/
theorem intern_of_find?_eq_none (h : t.find? a = none) :
    (t.intern a).2 = t.size ∧ (t.intern a).1.items = t.items.push a := by
  unfold intern
  split
  · rename_i hi
    rw [hi] at h
    cases h
  · rename_i hi
    exact ⟨rfl, items_push t a hi⟩

theorem get?_intern_self (t : Interner α) (a : α) :
    (t.intern a).1.get? (t.intern a).2 = some a := by
  cases h : t.find? a with
  | some i =>
    rw [intern_of_find? h]
    exact find?_eq_some_iff.mp h
  | none =>
    obtain ⟨h1, h2⟩ := intern_of_find?_eq_none h
    rw [get?, h1, h2]
    exact Array.getElem?_push_size

theorem get?_intern_of_some (a : α) (h : t.get? i = some b) :
    (t.intern a).1.get? i = some b := by
  cases ha : t.find? a with
  | some j => rwa [intern_of_find? ha]
  | none =>
    have hlt : i < t.items.size := lt_size h
    rw [get?, (intern_of_find?_eq_none ha).2, Array.getElem?_push, if_neg (Nat.ne_of_lt hlt)]
    exact h

/-- What is there afterwards was there before, or is the value itself. -/
theorem get?_intern (h : (t.intern a).1.get? i = some b) : t.get? i = some b ∨ b = a := by
  cases ha : t.find? a with
  | some j =>
    rw [intern_of_find? ha] at h
    exact .inl h
  | none =>
    rw [get?, (intern_of_find?_eq_none ha).2, Array.getElem?_push] at h
    split at h
    · cases h
      exact .inr rfl
    · exact .inl h

/-- The first value gets number zero. -/
theorem get?_intern_empty (a : α) : (empty.intern a).1.get? 0 = some a := by
  have h : (empty : Interner α).find? a = none := by simp [find?, empty]
  have := get?_intern_self empty a
  rwa [(intern_of_find?_eq_none h).1] at this

theorem size_intern_le (t : Interner α) (a : α) : (t.intern a).1.size ≤ t.size + 1 := by
  cases ha : t.find? a with
  | some j =>
    rw [intern_of_find? ha]
    exact Nat.le_succ _
  | none =>
    rw [size, (intern_of_find?_eq_none ha).2, Array.size_push]
    exact Nat.le_refl _

end PatternAutomata.Interner
