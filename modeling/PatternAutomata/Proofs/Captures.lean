import PatternAutomata.Proofs.Backtrack.Basic

/-!
# Boundaries as operations on captures

Every operation on a capture array acts on each entry alone. `Boundaries.entry` and
`CaptureOp.entry` say what becomes of one entry, and the record that a path keeps acts as the
operations on the path do, one after the other.
-/

namespace PatternAutomata

/-! ## Single operations -/

namespace CaptureOp

/-- What becomes of entry `i` at a position. -/
def entry (op : CaptureOp) (i position : Nat) (e : Option Nat) : Option Nat :=
  if op.touches i then op.value position else e

end CaptureOp

/-! ## Records -/

namespace Boundaries

/-- What becomes of entry `i` at a position. -/
def entry (b : Boundaries) (i position : Nat) (e : Option Nat) : Option Nat :=
  if b.updates i then some position else if b.clears i then none else e

theorem apply_eq (b : Boundaries) (captures : Captures) (position : Nat) :
    b.apply captures position = captures.mapIdx fun i e => b.entry i position e := rfl

@[simp] theorem size_apply (b : Boundaries) (captures : Captures) (position : Nat) :
    (b.apply captures position).size = captures.size := by
  simp [apply]

theorem getElem?_apply (b : Boundaries) (captures : Captures) (position i : Nat) :
    (b.apply captures position)[i]? = captures[i]?.map (b.entry i position) := by
  simp [apply_eq]

@[simp] theorem entry_empty (i position : Nat) (e : Option Nat) : empty.entry i position e = e := by
  have h : ∀ g, (∅ : BitSet).contains g = false := BitSet.contains_empty
  simp [entry, updates, clears, empty, h]

theorem apply_empty (captures : Captures) (position : Nat) :
    empty.apply captures position = captures := by
  rw [apply_eq]
  exact Array.ext (by simp) (by simp)

/-! ## Later operations -/

theorem entry_merge (a b : Boundaries) (i position : Nat) (e : Option Nat) :
    (a.merge b).entry i position e = b.entry i position (a.entry i position e) := by
  unfold entry updates clears merge
  by_cases hi : i % 2 = 0
  · simp only [hi, ite_true, BitSet.contains_union, BitSet.contains_sdiff]
    cases b.startUpdated.contains (i / 2) <;> cases b.startCleared.contains (i / 2) <;> simp
  · simp only [hi, ite_false, BitSet.contains_union, BitSet.contains_sdiff]
    cases b.endUpdated.contains (i / 2) <;> cases b.endCleared.contains (i / 2) <;> simp

theorem apply_merge (a b : Boundaries) (captures : Captures) (position : Nat) :
    (a.merge b).apply captures position = b.apply (a.apply captures position) position := by
  simp [apply_eq, entry_merge, Array.mapIdx_mapIdx, Function.comp_def]

theorem entry_updateStart (b : Boundaries) (g i position : Nat) (e : Option Nat) :
    (b.updateStart g).entry i position e =
      (CaptureOp.start g).entry i position (b.entry i position e) := by
  unfold entry updates clears updateStart CaptureOp.entry CaptureOp.touches CaptureOp.value
  by_cases hi : i % 2 = 0
  · have hg : g = i / 2 ↔ i = 2 * g := by omega
    simp only [hi, ite_true, BitSet.contains_insert, BitSet.contains_erase, hg]
    by_cases h : i = 2 * g <;> simp [h]
  · have hg : i ≠ 2 * g := by omega
    simp [hi, hg]

theorem entry_updateEnd (b : Boundaries) (g i position : Nat) (e : Option Nat) :
    (b.updateEnd g).entry i position e =
      (CaptureOp.stop g).entry i position (b.entry i position e) := by
  unfold entry updates clears updateEnd CaptureOp.entry CaptureOp.touches CaptureOp.value
  by_cases hi : i % 2 = 0
  · have hg : i ≠ 2 * g + 1 := by omega
    simp [hi, hg]
  · have hg : g = i / 2 ↔ i = 2 * g + 1 := by omega
    simp only [hi, ite_false, BitSet.contains_insert, BitSet.contains_erase, hg]
    by_cases h : i = 2 * g + 1 <;> simp [h]

theorem entry_clear (b : Boundaries) (lo hi i position : Nat) (e : Option Nat) :
    (b.clear lo hi).entry i position e =
      (CaptureOp.reset lo hi).entry i position (b.entry i position e) := by
  unfold entry updates clears clear CaptureOp.entry CaptureOp.touches CaptureOp.value
  by_cases hr : lo ≤ i / 2 ∧ i / 2 < hi
  · simp [hr]
  · have hr' : (decide (lo ≤ i / 2) && decide (i / 2 < hi)) = false := by simpa using hr
    simp [hr']

end Boundaries

end PatternAutomata
