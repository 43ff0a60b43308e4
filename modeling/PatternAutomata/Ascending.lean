import Std.Data.TreeSet

/-!
# Ascending lists
-/

namespace PatternAutomata

/-- The numbers of a list in ascending order, without repetition. -/
def ascending (as : List Nat) : List Nat :=
  (as.foldl (fun s a => s.insert a) (∅ : Std.TreeSet Nat)).toList

theorem mem_ascending {as : List Nat} {a : Nat} : a ∈ ascending as ↔ a ∈ as := by
  have h : ∀ (as : List Nat) (s : Std.TreeSet Nat),
      a ∈ as.foldl (fun s a => s.insert a) s ↔ a ∈ s ∨ a ∈ as := by
    intro as
    induction as with
    | nil => simp
    | cons b as ih =>
      intro s
      rw [List.foldl_cons, ih, Std.TreeSet.mem_insert, Std.LawfulEqCmp.compare_eq_iff_eq,
        List.mem_cons, eq_comm, or_comm (b := a ∈ s), or_assoc]
  rw [ascending, Std.TreeSet.mem_toList, h]
  simp

theorem ascending_pairwise (as : List Nat) : (ascending as).Pairwise (· < ·) :=
  (Std.TreeSet.ordered_toList (t := as.foldl (fun s a => s.insert a) ∅)).imp
    Nat.compare_eq_lt.mp

end PatternAutomata
