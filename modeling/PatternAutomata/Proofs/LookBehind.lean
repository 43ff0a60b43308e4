import Mathlib.Data.List.Induction
import PatternAutomata.Proofs.Backtrack.Basic
import PatternAutomata.Proofs.CodePoints
import PatternAutomata.Proofs.Results

/-!
# What a tracker has seen

A tracker that has read a text has bit `k` of an entry set exactly when the text ends with the first
`k` classes of the entry. So an entry is satisfied when the text ends with its body, and only as
many characters matter as the longest body has.
-/

namespace PatternAutomata

/-! ## Texts of code points -/

/-- The text ends with code points of the classes, one of each. -/
def EndsIn (w : List Nat) (classes : List CodePointSet) : Prop :=
  classes.length ≤ w.length ∧
    List.Forall₂ (fun c set => c ∈ set) (w.drop (w.length - classes.length)) classes

namespace EndsIn

theorem nil (w : List Nat) : EndsIn w [] := by
  refine ⟨Nat.zero_le _, ?_⟩
  rw [List.length_nil, Nat.sub_zero, List.drop_length]
  exact .nil

theorem nil_left {classes : List CodePointSet} (h : EndsIn [] classes) : classes = [] :=
  List.length_eq_zero_iff.mp (Nat.le_zero.mp h.1)

/-- The last class takes the last code point. -/
theorem concat_iff {w : List Nat} {c : Nat} {classes : List CodePointSet} {set : CodePointSet} :
    EndsIn (w ++ [c]) (classes ++ [set]) ↔ EndsIn w classes ∧ c ∈ set := by
  unfold EndsIn
  rw [List.length_append, List.length_append, List.length_singleton, List.length_singleton,
    Nat.add_le_add_iff_right, Nat.add_sub_add_right, and_assoc]
  refine and_congr_right fun hle => ?_
  rw [List.drop_append_of_le_length (Nat.sub_le ..), ← List.forall₂_reverse_iff,
    List.reverse_concat, List.reverse_concat, List.forall₂_cons, List.forall₂_reverse_iff, and_comm]

end EndsIn

namespace Subject

variable {w : List Char} {classes : List CodePointSet}

theorem liesIn_iff {cs : List Char} {sets : List CodePointSet} :
    liesIn cs sets = true ↔ List.Forall₂ (fun c set => c ∈ set) (cs.map Char.toNat) sets := by
  induction cs generalizing sets with
  | nil => cases sets <;> simp [liesIn]
  | cons c cs ih =>
    cases sets with
    | nil => simp [liesIn]
    | cons set sets =>
      rw [liesIn, Bool.and_eq_true, ih, List.map_cons, List.forall₂_cons]
      rfl

theorem endsIn_iff : endsIn w classes = true ↔ EndsIn (w.map Char.toNat) classes := by
  rw [endsIn, Bool.and_eq_true, decide_eq_true_eq, liesIn_iff, List.map_drop, EndsIn,
    List.length_map]

@[simp] theorem endsIn_nil (w : List Char) : endsIn w [] = true := endsIn_iff.mpr (.nil _)

/-- The last class takes the last character. -/
theorem endsIn_append_singleton (w : List Char) (c : Char) (classes : List CodePointSet)
    (set : CodePointSet) :
    endsIn (w ++ [c]) (classes ++ [set]) = (endsIn w classes && set.contains c.toNat) := by
  rw [Bool.eq_iff_iff, Bool.and_eq_true, endsIn_iff, endsIn_iff, List.map_append]
  exact EndsIn.concat_iff

/-- Only the last characters matter. -/
theorem endsIn_drop {m : Nat} (h : classes.length ≤ m) :
    endsIn (w.drop (w.length - m)) classes = endsIn w classes := by
  unfold endsIn
  by_cases hw : classes.length ≤ w.length
  · have h1 : classes.length ≤ (w.drop (w.length - m)).length := by
      rw [List.length_drop]
      omega
    have h2 : w.length - m + ((w.drop (w.length - m)).length - classes.length) =
        w.length - classes.length := by
      rw [List.length_drop]
      omega
    rw [List.drop_drop, h2, decide_eq_true h1, decide_eq_true hw]
  · have h1 : ¬classes.length ≤ (w.drop (w.length - m)).length := by
      rw [List.length_drop]
      omega
    rw [decide_eq_false h1, decide_eq_false hw, Bool.false_and, Bool.false_and]

end Subject

/-! ## Bits of an entry -/

namespace LookBehind

theorem contains_shifted (tracker : BitSet) (c : Nat) (classes : List CodePointSet) (bit b : Nat) :
    (shifted tracker c bit classes).contains b = true ↔
      ∃ k set, classes[k]? = some set ∧ b = bit + k + 1 ∧ tracker.contains (bit + k) = true ∧
        set.contains c = true := by
  induction classes generalizing bit with
  | nil =>
    have h : (∅ : BitSet).contains b = false := BitSet.contains_empty b
    simp [shifted, h]
  | cons cls classes ih =>
    have step : (∃ k set, (cls :: classes)[k]? = some set ∧ b = bit + k + 1 ∧
        tracker.contains (bit + k) = true ∧ set.contains c = true) ↔
        (b = bit + 1 ∧ tracker.contains bit = true ∧ cls.contains c = true) ∨
          (shifted tracker c (bit + 1) classes).contains b = true := by
      rw [ih]
      constructor
      · rintro ⟨k, set, hk, hb, ht, hs⟩
        cases k with
        | zero =>
          cases hk
          exact .inl ⟨hb, ht, hs⟩
        | succ k =>
          refine .inr ⟨k, set, hk, by omega, ?_, hs⟩
          rwa [show bit + 1 + k = bit + (k + 1) by omega]
      · rintro (⟨hb, ht, hs⟩ | ⟨k, set, hk, hb, ht, hs⟩)
        · exact ⟨0, cls, rfl, hb, ht, hs⟩
        · refine ⟨k + 1, set, hk, by omega, ?_, hs⟩
          rwa [show bit + (k + 1) = bit + 1 + k by omega]
    rw [step, shifted]
    split
    · rename_i h
      simp only [Bool.and_eq_true] at h
      rw [BitSet.contains_insert_iff]
      simp [h, or_comm]
    · rename_i h
      simp only [Bool.and_eq_true, not_and] at h
      constructor
      · exact .inr
      · rintro (⟨-, ht, hs⟩ | h')
        · exact absurd hs (h ht)
        · exact h'

theorem contains_advance (e : LookBehind) (tracker : BitSet) (c b : Nat) :
    (e.advance tracker c).contains b = true ↔
      b = e.offset ∨ ∃ k set, e.classes[k]? = some set ∧ b = e.offset + k + 1 ∧
        tracker.contains (e.offset + k) = true ∧ set.contains c = true := by
  rw [advance, BitSet.contains_insert_iff, contains_shifted, or_comm]

theorem le_offset_of_mem_layOut {offset : Nat} {bodies : List (List CodePointSet)} {e : LookBehind}
    (h : e ∈ layOut offset bodies) : offset ≤ e.offset := by
  induction bodies generalizing offset with
  | nil => simp [layOut] at h
  | cons body bodies ih =>
    simp only [layOut, List.mem_cons] at h
    rcases h with rfl | h
    · exact Nat.le_refl _
    · have := ih h
      omega

/-- No two entries share a bit. -/
theorem eq_of_mem_layOut {offset : Nat} {bodies : List (List CodePointSet)} {e f : LookBehind}
    (he : e ∈ layOut offset bodies) (hf : f ∈ layOut offset bodies) {j k : Nat}
    (hj : j ≤ e.classes.length) (hk : k ≤ f.classes.length) (h : e.offset + j = f.offset + k) :
    e = f := by
  induction bodies generalizing offset with
  | nil => simp [layOut] at he
  | cons body bodies ih =>
    simp only [layOut, List.mem_cons] at he hf
    rcases he with rfl | he <;> rcases hf with rfl | hf
    · rfl
    · have := le_offset_of_mem_layOut hf
      simp only at hj h
      omega
    · have := le_offset_of_mem_layOut he
      simp only at hk h
      omega
    · exact ih he hf

theorem map_classes_layOut (offset : Nat) (bodies : List (List CodePointSet)) :
    (layOut offset bodies).map (·.classes) = bodies := by
  induction bodies generalizing offset with
  | nil => rfl
  | cons body bodies ih => simp [layOut, ih]

end LookBehind

/-! ## Trackers -/

namespace LookBehindTable

open Subject (endsIn)

variable {t : LookBehindTable}

/-- The tracker after a text of code points. -/
def afterCodes (t : LookBehindTable) (w : List Nat) : BitSet := w.foldl t.advance t.initial

theorem afterCodes_append_singleton (w : List Nat) (c : Nat) :
    t.afterCodes (w ++ [c]) = t.advance (t.afterCodes w) c := List.foldl_concat ..

/-- The tracker after a text. -/
def after (t : LookBehindTable) (w : List Char) : BitSet :=
  w.foldl (fun s c => t.advance s c.toNat) t.initial

theorem after_eq (t : LookBehindTable) (w : List Char) :
    t.after w = t.afterCodes (w.map Char.toNat) := List.foldl_map.symm

@[simp] theorem after_nil : t.after [] = t.initial := rfl

@[simp] theorem after_append_singleton (w : List Char) (c : Char) :
    t.after (w ++ [c]) = t.advance (t.after w) c.toNat := by
  simp [after]

/-- The entries own bits of their own. -/
def LaidOut (t : LookBehindTable) : Prop := ∃ bodies, t.entries = LookBehind.layOut 0 bodies

theorem contains_initial (t : LookBehindTable) (b : Nat) :
    t.initial.contains b = true ↔ ∃ e ∈ t.entries, b = e.offset := by
  have fold : ∀ (es : List LookBehind) (s : BitSet),
      (es.foldl (fun s e => s.insert e.offset) s).contains b = true ↔
        s.contains b = true ∨ ∃ e ∈ es, b = e.offset := by
    intro es
    induction es with
    | nil => simp
    | cons e es ih =>
      intro s
      rw [List.foldl_cons, ih, BitSet.contains_insert_iff]
      simp [or_assoc]
  rw [initial, fold]
  have h : (∅ : BitSet).contains b = false := BitSet.contains_empty b
  simp [h]

theorem contains_advance (t : LookBehindTable) (s : BitSet) (c b : Nat) :
    (t.advance s c).contains b = true ↔ ∃ e ∈ t.entries, (e.advance s c).contains b = true := by
  have fold : ∀ (es : List LookBehind) (u : BitSet),
      (es.foldl (fun u e => u.union (e.advance s c)) u).contains b = true ↔
        u.contains b = true ∨ ∃ e ∈ es, (e.advance s c).contains b = true := by
    intro es
    induction es with
    | nil => simp
    | cons e es ih =>
      intro u
      simp [ih, or_assoc]
  rw [advance, fold]
  have h : (∅ : BitSet).contains b = false := BitSet.contains_empty b
  simp [h]

/-- Bit `k` of an entry is set when the text ends with its first `k` classes. -/
theorem contains_afterCodes (ht : t.LaidOut) (w : List Nat) (b : Nat) :
    (t.afterCodes w).contains b = true ↔ ∃ e ∈ t.entries, ∃ k ≤ e.classes.length,
      b = e.offset + k ∧ EndsIn w (e.classes.take k) := by
  obtain ⟨bodies, hb⟩ := ht
  induction w using List.reverseRecOn generalizing b with
  | nil =>
    rw [show t.afterCodes [] = t.initial from rfl, contains_initial]
    constructor
    · rintro ⟨e, he, rfl⟩
      exact ⟨e, he, 0, Nat.zero_le _, rfl, .nil _⟩
    · rintro ⟨e, he, k, hk, rfl, h⟩
      refine ⟨e, he, ?_⟩
      have := congrArg List.length h.nil_left
      simp only [List.length_take, List.length_nil] at this
      omega
  | append_singleton w c ih =>
    rw [afterCodes_append_singleton, contains_advance]
    constructor
    · rintro ⟨e, he, h⟩
      rcases (LookBehind.contains_advance ..).mp h with rfl | ⟨k, set, hk, rfl, hbit, hc⟩
      · exact ⟨e, he, 0, Nat.zero_le _, rfl, .nil _⟩
      · obtain ⟨hlt, hset⟩ := List.getElem?_eq_some_iff.mp hk
        obtain ⟨f, hf, j, hj, hj', hends⟩ := (ih _).mp hbit
        obtain rfl : e = f :=
          LookBehind.eq_of_mem_layOut (hb ▸ he) (hb ▸ hf) (Nat.le_of_lt hlt) hj hj'
        obtain rfl : k = j := by omega
        refine ⟨e, he, k + 1, hlt, by omega, ?_⟩
        rw [List.take_add_one, hk]
        exact EndsIn.concat_iff.mpr ⟨hends, hc⟩
    · rintro ⟨e, he, k, hk, rfl, hends⟩
      refine ⟨e, he, (LookBehind.contains_advance ..).mpr ?_⟩
      cases k with
      | zero => exact .inl rfl
      | succ k =>
        have hget : e.classes[k]? = some e.classes[k] := List.getElem?_eq_getElem hk
        rw [List.take_add_one, hget] at hends
        obtain ⟨hends, hc⟩ := EndsIn.concat_iff.mp hends
        exact .inr ⟨k, _, hget, rfl, (ih _).mpr ⟨e, he, k, Nat.le_of_succ_le hk, rfl, hends⟩, hc⟩

theorem contains_bit_afterCodes (ht : t.LaidOut) {w : List Nat} {e : LookBehind}
    (he : e ∈ t.entries) {k : Nat} (hk : k ≤ e.classes.length) :
    (t.afterCodes w).contains (e.offset + k) = true ↔ EndsIn w (e.classes.take k) := by
  rw [contains_afterCodes ht]
  constructor
  · rintro ⟨f, hf, j, hj, h, hends⟩
    obtain ⟨bodies, hb⟩ := ht
    obtain rfl : e = f := LookBehind.eq_of_mem_layOut (hb ▸ he) (hb ▸ hf) hk hj h
    obtain rfl : k = j := Nat.add_left_cancel h
    exact hends
  · exact fun hends => ⟨e, he, k, hk, rfl, hends⟩

theorem contains_after (ht : t.LaidOut) (w : List Char) (b : Nat) :
    (t.after w).contains b = true ↔ ∃ e ∈ t.entries, ∃ k ≤ e.classes.length,
      b = e.offset + k ∧ endsIn w (e.classes.take k) = true := by
  rw [after_eq, contains_afterCodes ht]
  simp only [Subject.endsIn_iff]

/-- Characters that no class tells apart lead to the same tracker. -/
theorem advance_congr {c d : Nat} (h : ∀ set ∈ t.classes, set.contains c = set.contains d)
    (s : BitSet) : t.advance s c = t.advance s d := by
  have hshift : ∀ (classes : List CodePointSet) (bit : Nat),
      (∀ set ∈ classes, set.contains c = set.contains d) →
        LookBehind.shifted s c bit classes = LookBehind.shifted s d bit classes := by
    intro classes
    induction classes with
    | nil => exact fun _ _ => rfl
    | cons set classes ih =>
      intro bit hset
      unfold LookBehind.shifted
      rw [ih _ fun s hs => hset s (by simp [hs]), hset set (by simp)]
  have hentry : ∀ e ∈ t.entries, e.advance s c = e.advance s d := by
    intro e he
    unfold LookBehind.advance
    rw [hshift _ _ fun set hset => h set (List.mem_flatMap.mpr ⟨e, he, hset⟩)]
  unfold advance
  generalize (∅ : BitSet) = u
  generalize t.entries = es at hentry
  induction es generalizing u with
  | nil => rfl
  | cons e es ih =>
    rw [List.foldl_cons, List.foldl_cons, hentry e (by simp)]
    exact ih _ fun e he => hentry e (by simp [he])

/-! ## Satisfied entries -/

theorem contains_foldl_satisfied (s : BitSet) (i : Nat) (es : List LookBehind) (n : Nat)
    (u : BitSet) :
    ((es.zipIdx n).foldl (fun u (e, i) => if e.isSatisfied s then u.insert i else u) u).contains i
        = true ↔
      u.contains i = true ∨ n ≤ i ∧ ∃ e, es[i - n]? = some e ∧ e.isSatisfied s = true := by
  induction es generalizing n u with
  | nil => simp
  | cons e es ih =>
    rw [List.zipIdx_cons, List.foldl_cons, ih]
    rcases Nat.lt_trichotomy i n with h | rfl | h
    · have h1 : ¬n ≤ i := by omega
      have h2 : ¬n + 1 ≤ i := by omega
      by_cases he : e.isSatisfied s = true
      · simp [he, h1, h2]
        omega
      · simp [he, h1, h2]
    · by_cases he : e.isSatisfied s = true
      · simp [he]
      · simp [he, Nat.not_succ_le_self]
    · have h1 : i - n = i - (n + 1) + 1 := by omega
      have h2 : n + 1 ≤ i := by omega
      have h3 : n ≤ i := by omega
      have h4 : n ≠ i := by omega
      by_cases he : e.isSatisfied s = true <;> simp [he, h1, h2, h3, h4]

theorem contains_satisfied (t : LookBehindTable) (s : BitSet) (i : Nat) :
    (t.satisfied s).contains i = true ↔
      ∃ e, t.entries[i]? = some e ∧ e.isSatisfied s = true := by
  rw [satisfied, contains_foldl_satisfied]
  have h : (∅ : BitSet).contains i = false := BitSet.contains_empty i
  simp [h]

/-- An entry holds where the text ends with its body. -/
theorem contains_satisfied_afterCodes (ht : t.LaidOut) (w : List Nat) {i : Nat} {e : LookBehind}
    (hi : t.entries[i]? = some e) :
    (t.satisfied (t.afterCodes w)).contains i = true ↔ EndsIn w e.classes := by
  rw [contains_satisfied]
  simp only [hi, Option.some.injEq, exists_eq_left', LookBehind.isSatisfied]
  rw [contains_bit_afterCodes ht (List.mem_of_getElem? hi) (Nat.le_refl _), List.take_length]

theorem contains_satisfied_after (ht : t.LaidOut) (w : List Char) {i : Nat} {e : LookBehind}
    (hi : t.entries[i]? = some e) :
    (t.satisfied (t.after w)).contains i = endsIn w e.classes := by
  rw [Bool.eq_iff_iff, after_eq, contains_satisfied_afterCodes ht _ hi, Subject.endsIn_iff]

/-! ## How far back -/

theorem length_le_maxLength {e : LookBehind} (he : e ∈ t.entries) :
    e.classes.length ≤ t.maxLength := by
  have fold : ∀ (ns : List Nat) (m : Nat), m ≤ ns.foldl max m ∧ ∀ n ∈ ns, n ≤ ns.foldl max m := by
    intro ns
    induction ns with
    | nil => simp
    | cons n ns ih =>
      intro m
      obtain ⟨h1, h2⟩ := ih (max m n)
      simp only [List.foldl_cons, List.mem_cons, forall_eq_or_imp]
      exact ⟨by omega, by omega, h2⟩
  exact (fold _ 0).2 _ (List.mem_map.mpr ⟨e, he, rfl⟩)

/-- No more characters matter than the longest body has. -/
theorem after_drop (ht : t.LaidOut) (w : List Char) :
    t.after (w.drop (w.length - t.maxLength)) = t.after w := by
  refine BitSet.ext fun b => ?_
  rw [Bool.eq_iff_iff, contains_after ht, contains_after ht]
  refine exists_congr fun e => and_congr_right fun he => exists_congr fun k =>
    and_congr_right fun hk => and_congr_right fun _ => ?_
  rw [Subject.endsIn_drop]
  have := length_le_maxLength he
  rw [List.length_take]
  omega

/-- Without entries a tracker has nothing to see. -/
theorem after_of_isEmpty (h : t.isEmpty = true) (w : List Char) : t.after w = t.initial := by
  have he : t.entries = [] := List.isEmpty_iff.mp h
  induction w using List.reverseRecOn with
  | nil => rfl
  | append_singleton w c ih =>
    rw [after_append_singleton]
    simp [advance, initial, he]

/-! ## The table of a pattern -/

theorem laidOut_of_ofTree {tree : Tree} {multiline : Bool} (h : ofTree tree multiline = .ok t) :
    t.LaidOut := by
  obtain ⟨bodies, -, h⟩ := bind_eq_ok.mp h
  cases h
  exact ⟨_, rfl⟩

end LookBehindTable

end PatternAutomata
