import Mathlib.Data.List.Induction
import PatternAutomata.Captures.Relative
import PatternAutomata.Proofs.Captures

/-!
# Records of edits

A record is made by edits: each sets the start or the end of a group, or resets a range of groups.
For every entry of a capture array the record remembers the last edit that touches it, as an update
or as a reset, never as both. So merging two records is recording the edits of the one and then
those of the other, and everything that holds of sequences of edits holds of records.
-/

namespace PatternAutomata

/-- Whether the edit resets entries rather than sets one. -/
def CaptureOp.resets : CaptureOp → Bool
  | reset _ _ => true
  | _ => false

namespace Boundaries

/-- The record with one more edit. -/
def edit (b : Boundaries) : CaptureOp → Boundaries
  | .start g => b.updateStart g
  | .stop g => b.updateEnd g
  | .reset first bound => b.clear first bound

/-- The record of edits that are made one after the other. -/
def ofEdits (ops : List CaptureOp) : Boundaries := ops.foldl edit empty

/-- The last of the edits that touch entry `i`. -/
def lastEdit? (ops : List CaptureOp) (i : Nat) : Option CaptureOp :=
  ops.reverse.find? (·.touches i)

theorem ofEdits_concat (ops : List CaptureOp) (op : CaptureOp) :
    ofEdits (ops ++ [op]) = (ofEdits ops).edit op := by
  simp [ofEdits]

theorem lastEdit?_concat (ops : List CaptureOp) (op : CaptureOp) (i : Nat) :
    lastEdit? (ops ++ [op]) i = if op.touches i then some op else lastEdit? ops i := by
  rw [lastEdit?, List.reverse_concat, List.find?_cons]
  cases op.touches i <;> rfl

variable {a b : Boundaries} {op : CaptureOp} {i : Nat}

/-! ## Entries of a record -/

/-- A record is known by what it does to each entry. -/
theorem eq_of_entries (hupdates : ∀ i, a.updates i = b.updates i)
    (hclears : ∀ i, a.clears i = b.clears i) : a = b := by
  have hstart : ∀ g, 2 * g % 2 = 0 ∧ 2 * g / 2 = g := fun g => by omega
  have hstop : ∀ g, (2 * g + 1) % 2 ≠ 0 ∧ (2 * g + 1) / 2 = g := fun g => by omega
  have hsu : a.startUpdated = b.startUpdated := BitSet.ext fun g => by
    simpa only [updates, if_pos (hstart g).1, (hstart g).2] using hupdates (2 * g)
  have heu : a.endUpdated = b.endUpdated := BitSet.ext fun g => by
    simpa only [updates, if_neg (hstop g).1, (hstop g).2] using hupdates (2 * g + 1)
  have hsc : a.startCleared = b.startCleared := BitSet.ext fun g => by
    simpa only [clears, if_pos (hstart g).1, (hstart g).2] using hclears (2 * g)
  have hec : a.endCleared = b.endCleared := BitSet.ext fun g => by
    simpa only [clears, if_neg (hstop g).1, (hstop g).2] using hclears (2 * g + 1)
  cases a
  cases b
  simp_all

@[simp] theorem updates_empty (i : Nat) : empty.updates i = false := by
  simp [updates, empty, show ∀ g, (∅ : BitSet).contains g = false from BitSet.contains_empty]

@[simp] theorem clears_empty (i : Nat) : empty.clears i = false := by
  simp [clears, empty, show ∀ g, (∅ : BitSet).contains g = false from BitSet.contains_empty]

theorem updates_merge (a b : Boundaries) (i : Nat) :
    (a.merge b).updates i = (a.updates i && !b.clears i || b.updates i) := by
  unfold updates clears merge
  split <;> simp

theorem clears_merge (a b : Boundaries) (i : Nat) :
    (a.merge b).clears i = (a.clears i && !b.updates i || b.clears i) := by
  unfold updates clears merge
  split <;> simp

/-- An edit resets what it touches, or sets it. -/
theorem entries_edit (b : Boundaries) (op : CaptureOp) (i : Nat) :
    ((b.edit op).updates i, (b.edit op).clears i) =
      if op.touches i then (!op.resets, op.resets) else (b.updates i, b.clears i) := by
  unfold edit updates clears
  cases op with
  | start g =>
    simp only [updateStart, CaptureOp.touches, CaptureOp.resets]
    by_cases hi : i % 2 = 0
    · have hg : g = i / 2 ↔ i = 2 * g := by omega
      simp only [hi, ite_true, BitSet.contains_insert, BitSet.contains_erase, hg]
      by_cases h : i = 2 * g <;> simp [h]
    · have hg : i ≠ 2 * g := by omega
      simp [hi, hg]
  | stop g =>
    simp only [updateEnd, CaptureOp.touches, CaptureOp.resets]
    by_cases hi : i % 2 = 0
    · have hg : i ≠ 2 * g + 1 := by omega
      simp [hi, hg]
    · have hg : g = i / 2 ↔ i = 2 * g + 1 := by omega
      simp only [hi, ite_false, BitSet.contains_insert, BitSet.contains_erase, hg]
      by_cases h : i = 2 * g + 1 <;> simp [h]
  | reset first bound =>
    simp only [clear, CaptureOp.touches, CaptureOp.resets]
    by_cases h : first ≤ i / 2 ∧ i / 2 < bound
    · simp [h]
    · have h' : (decide (first ≤ i / 2) && decide (i / 2 < bound)) = false := by simpa using h
      simp [h']

theorem updates_edit (b : Boundaries) (op : CaptureOp) (i : Nat) :
    (b.edit op).updates i = if op.touches i then !op.resets else b.updates i := by
  rw [show (b.edit op).updates i = _ from congrArg Prod.fst (entries_edit b op i)]
  split <;> rfl

theorem clears_edit (b : Boundaries) (op : CaptureOp) (i : Nat) :
    (b.edit op).clears i = if op.touches i then op.resets else b.clears i := by
  rw [show (b.edit op).clears i = _ from congrArg Prod.snd (entries_edit b op i)]
  split <;> rfl

/-! ## The last edit -/

/-- The record keeps the last edit to each entry, as an update or as a reset. -/
structure Records (b : Boundaries) (ops : List CaptureOp) : Prop where
  disjoint : ∀ i, ¬(b.updates i = true ∧ b.clears i = true)
  updates_iff : ∀ i, b.updates i = true ↔ ∃ op, lastEdit? ops i = some op ∧ op.resets = false
  clears_iff : ∀ i, b.clears i = true ↔ ∃ op, lastEdit? ops i = some op ∧ op.resets = true

theorem updates_ofEdits (ops : List CaptureOp) (i : Nat) :
    (ofEdits ops).updates i = (lastEdit? ops i).any fun op => !op.resets := by
  induction ops using List.reverseRecOn with
  | nil => exact updates_empty i
  | append_singleton ops op ih =>
    rw [ofEdits_concat, updates_edit, lastEdit?_concat, ih]
    split <;> rfl

theorem clears_ofEdits (ops : List CaptureOp) (i : Nat) :
    (ofEdits ops).clears i = (lastEdit? ops i).any CaptureOp.resets := by
  induction ops using List.reverseRecOn with
  | nil => exact clears_empty i
  | append_singleton ops op ih =>
    rw [ofEdits_concat, clears_edit, lastEdit?_concat, ih]
    split <;> rfl

theorem records_ofEdits (ops : List CaptureOp) : (ofEdits ops).Records ops where
  disjoint i h := by
    rw [updates_ofEdits, clears_ofEdits] at h
    cases hlast : lastEdit? ops i with
    | none => simp [hlast] at h
    | some op => simp [hlast] at h
  updates_iff i := by
    rw [updates_ofEdits, Option.any_eq_true]
    simp only [Bool.not_eq_true']
  clears_iff i := by rw [clears_ofEdits, Option.any_eq_true]

/-! ## Merging -/

theorem merge_empty (a : Boundaries) : a.merge empty = a :=
  eq_of_entries (fun i => by simp [updates_merge]) fun i => by simp [clears_merge]

theorem merge_edit (a b : Boundaries) (op : CaptureOp) :
    a.merge (b.edit op) = (a.merge b).edit op := by
  refine eq_of_entries (fun i => ?_) fun i => ?_
  · rw [updates_merge, updates_edit, clears_edit, updates_edit, updates_merge]
    cases op.touches i <;> cases op.resets <;> simp
  · rw [clears_merge, updates_edit, clears_edit, clears_edit, clears_merge]
    cases op.touches i <;> cases op.resets <;> simp

/-- Merging records puts the edits one after the other. -/
theorem merge_ofEdits (ops ops' : List CaptureOp) :
    (ofEdits ops).merge (ofEdits ops') = ofEdits (ops ++ ops') := by
  induction ops' using List.reverseRecOn with
  | nil => rw [List.append_nil, show ofEdits [] = empty from rfl, merge_empty]
  | append_singleton ops' op ih =>
    rw [ofEdits_concat, merge_edit, ih, ← List.append_assoc, ofEdits_concat]

end Boundaries

/-! ## Distances back -/

namespace RelativeCaptures

/-- The captures as distances back from a position. -/
def ofCaptures (position : Nat) (captures : Captures) : RelativeCaptures :=
  captures.map (·.map (position - ·))

/-- The captures lie before the position, near enough for their distances to be kept. -/
def InReach (position : Nat) (captures : Captures) : Prop :=
  ∀ (i q : Nat), captures[i]? = some (some q) → q ≤ position ∧ position - q ≤ maxDistance

variable {position : Nat} {captures : Captures} {b : Boundaries}

/-- What is set at the position is at distance zero, and what is reset has no distance. -/
theorem record_ofCaptures (b : Boundaries) (position : Nat) (captures : Captures) :
    (ofCaptures position captures).record b = ofCaptures position (b.apply captures position) := by
  refine Array.ext (by simp [record, ofCaptures]) fun i _ _ => ?_
  simp only [record, Boundaries.apply, ofCaptures, Array.getElem_mapIdx, Array.getElem_map]
  cases b.updates i <;> cases b.clears i <;> simp

theorem resolve_ofCaptures (h : InReach position captures) :
    (ofCaptures position captures).resolve position = captures := by
  refine Array.ext (by simp [resolve, ofCaptures]) fun i _ hi => ?_
  simp only [resolve, ofCaptures, Array.getElem_map]
  cases hentry : captures[i] with
  | none => rfl
  | some q =>
    have hq := (h i q (by rw [Array.getElem?_eq_getElem hi, hentry])).1
    exact congrArg some (Nat.sub_sub_self hq)

theorem InReach.apply (h : InReach position captures) (b : Boundaries) :
    InReach position (b.apply captures position) := by
  intro i q hq
  rw [Boundaries.getElem?_apply] at hq
  obtain ⟨entry, hentry, hq⟩ := Option.map_eq_some_iff.mp hq
  unfold Boundaries.entry at hq
  split at hq
  · cases hq
    exact ⟨Nat.le_refl _, by rw [Nat.sub_self]; exact Nat.zero_le _⟩
  · split at hq
    · cases hq
    · exact h i q (hentry.trans (congrArg some hq))

end RelativeCaptures

namespace Boundaries

open RelativeCaptures

/-- Records compose as the edits do that they are made of. Applied at one position a merged record
does what the one and then the other does, and what it does to captures does not depend on whether
they are kept as positions or as distances back. -/
theorem ofEdits_composes (xs ys zs : List CaptureOp) (captures : Captures) (position : Nat) :
    (ofEdits xs).Records xs ∧
    (ofEdits xs).merge (ofEdits ys) = ofEdits (xs ++ ys) ∧
    ((ofEdits xs).merge (ofEdits ys)).merge (ofEdits zs) =
      (ofEdits xs).merge ((ofEdits ys).merge (ofEdits zs)) ∧
    (ofEdits xs).merge empty = ofEdits xs ∧
    empty.merge (ofEdits xs) = ofEdits xs ∧
    ((ofEdits xs).merge (ofEdits ys)).apply captures position =
      (ofEdits ys).apply ((ofEdits xs).apply captures position) position ∧
    (ofCaptures position captures).record (ofEdits xs) =
      ofCaptures position ((ofEdits xs).apply captures position) ∧
    (InReach position captures →
      (ofCaptures position captures).resolve position = captures ∧
      InReach position ((ofEdits xs).apply captures position)) := by
  have hempty : empty.merge (ofEdits xs) = ofEdits xs := merge_ofEdits [] xs
  refine ⟨records_ofEdits xs, merge_ofEdits xs ys, ?_, merge_empty _, hempty, apply_merge ..,
    record_ofCaptures .., fun h => ⟨resolve_ofCaptures h, h.apply _⟩⟩
  simp only [merge_ofEdits, List.append_assoc]

/-- The end of the match is set, and its start four characters before stays in reach. -/
theorem ofEdits_composes_stop : InReach 7 #[some 3, none] ∧
    InReach 7 ((ofEdits [.stop 0]).apply #[some 3, none] 7) ∧
    (ofEdits [.stop 0]).apply #[some 3, none] 7 = #[some 3, some 7] := by
  have hreach : InReach 7 #[some 3, none] := by
    intro i q hq
    match i, hq with
    | 0, hq =>
      cases hq
      decide
    | 1, hq => cases hq
    | i + 2, hq => simp at hq
  obtain ⟨-, -, -, -, -, -, -, hdistances⟩ := ofEdits_composes [.stop 0] [] [] #[some 3, none] 7
  exact ⟨hreach, (hdistances hreach).2, by decide⟩

/-- Group 1 is reset after its start was set, and set again later. -/
example : (ofEdits [.start 1, .reset 1 3]).merge (ofEdits [.stop 2, .start 1]) =
    { startUpdated := .singleton 1, endUpdated := .singleton 2, startCleared := .singleton 2,
      endCleared := .singleton 1 } := by decide

end Boundaries

end PatternAutomata
