import Std.Data.TreeMap

/-!
# Interning

An `Interner` numbers values in the order in which they first appear. A value is looked up by a
code, which different values may share. The look-up agrees with the list of values (`find_iff`, a
field of the type), so two values have the same number exactly when they are equal.
-/

namespace PatternAutomata

/-- Gives each value a number by which it is looked up. -/
class Coded (α : Type) where
  code : α → Nat

namespace Coded

/-- The code of what has one part more. -/
def mix (code part : Nat) : Nat := (code * 1000003 + part % 2147483647) % 2147483647

variable {α : Type} [Coded α]

instance : Coded Nat := ⟨id⟩

instance : Coded (Option α) := ⟨fun a => a.elim 0 (code · + 1)⟩

instance : Coded (List α) := ⟨fun as => as.foldl (fun c a => mix c (code a)) 1⟩

instance : Coded (Array α) := ⟨fun as => as.foldl (fun c a => mix c (code a)) 1⟩

end Coded

/-- Distinct values, numbered from zero in the order of their first appearance. -/
structure Interner (α : Type) [DecidableEq α] [Coded α] where
  items : Array α
  /-- The numbers of the values with each code. -/
  numbers : Std.TreeMap Nat (List Nat)
  find_iff : ∀ (a : α) (i : Nat),
    (numbers.getD (Coded.code a) []).find? (items[·]? = some a) = some i ↔ items[i]? = some a

namespace Interner

variable {α : Type} [DecidableEq α] [Coded α]

def empty : Interner α := ⟨#[], ∅, by simp⟩

instance : Inhabited (Interner α) := ⟨empty⟩

def size (t : Interner α) : Nat := t.items.size

/-- The number of `a`, if it has one. -/
def find? (t : Interner α) (a : α) : Option Nat :=
  (t.numbers.getD (Coded.code a) []).find? (t.items[·]? = some a)

def get? (t : Interner α) (i : Nat) : Option α := t.items[i]?

theorem find?_eq_some_iff {t : Interner α} {a : α} {i : Nat} :
    t.find? a = some i ↔ t.get? i = some a :=
  t.find_iff a i

private theorem find_iff_push {items : Array α} {numbers : Std.TreeMap Nat (List Nat)}
    (inv : ∀ (b : α) (j : Nat), (numbers.getD (Coded.code b) []).find? (items[·]? = some b) = some j ↔
      items[j]? = some b) {a : α}
    (h : (numbers.getD (Coded.code a) []).find? (items[·]? = some a) = none) (b : α) (j : Nat) :
    ((numbers.insert (Coded.code a) (items.size :: numbers.getD (Coded.code a) [])).getD
      (Coded.code b) []).find? ((items.push a)[·]? = some b) = some j ↔
        (items.push a)[j]? = some b := by
  have fresh : ∀ j : Nat, items[j]? ≠ some a := fun j hj => by
    rw [(inv a j).mpr hj] at h
    cases h
  have hpush : ∀ i : Nat, b ≠ a → ((items.push a)[i]? = some b ↔ items[i]? = some b) := by
    intro i hab
    rw [Array.getElem?_push]
    by_cases hi : i = items.size
    · simp [hi, Ne.symm hab]
    · rw [if_neg hi]
  simp only [Std.TreeMap.getD_insert, Std.LawfulEqCmp.compare_eq_iff_eq]
  by_cases hab : b = a
  · subst hab
    rw [if_pos rfl, List.find?_cons_of_pos (by simp), Array.getElem?_push]
    by_cases hj : j = items.size
    · simp [hj]
    · simp [hj, fresh j, Ne.symm hj]
  · simp only [hpush _ hab, ← inv b j]
    split
    · rename_i hcode
      rw [hcode, List.find?_cons_of_neg (by simp)]
    · rfl

/-- Gives the next number to `a`, which has none yet. -/
def push : (t : Interner α) → (a : α) → t.find? a = none → Interner α
  | ⟨items, numbers, inv⟩, a, h =>
    let next := items.size
    let code := Coded.code a
    ⟨items.push a, numbers.insert code (next :: numbers.getD code []), find_iff_push inv h⟩

/-- The number of `a`, which is the next free one if `a` is new. -/
def intern (t : Interner α) (a : α) : Interner α × Nat :=
  match h : t.find? a with
  | some i => (t, i)
  | none =>
    let next := t.size
    (t.push a h, next)

@[simp] theorem items_push (t : Interner α) (a : α) (h : t.find? a = none) :
    (t.push a h).items = t.items.push a := by
  cases t
  rfl

/-- A value that has a number keeps it, and nothing is added. -/
theorem intern_of_find? {t : Interner α} {a : α} {i : Nat} (h : t.find? a = some i) :
    t.intern a = (t, i) := by
  unfold intern
  split
  · rename_i j hj
    rw [hj] at h
    cases h
    rfl
  · rename_i hj
    rw [hj] at h
    cases h

end Interner

end PatternAutomata
