import PatternAutomata.CodePoint.Classes
import PatternAutomata.Nfa.Guard

/-!
# Members of sets of code points

What the Boolean operations on sets of code points do to their members, and which characters a
guard lets follow.
-/

namespace PatternAutomata

theorem toNat_le_maxCodePoint (c : Char) : c.toNat ≤ maxCodePoint := by
  have h : c.toNat.isValidChar := c.valid
  have : maxCodePoint = 0x10FFFF := rfl
  unfold Nat.isValidChar at h
  omega

namespace CodePointSet

variable {s t : CodePointSet} {c : Nat}

theorem contains_eq_true : s.contains c = true ↔ ∃ r ∈ s.ranges, r.lo ≤ c ∧ c ≤ r.hi := mem_iff

theorem mem_single {d : Nat} : c ∈ single d ↔ c = d := by
  refine mem_iff.trans ?_
  simp only [single, ofRange, List.mem_singleton, exists_eq_left, CodePointRange.single]
  exact ⟨fun h => Nat.le_antisymm h.2 h.1, fun h => ⟨Nat.le_of_eq h.symm, Nat.le_of_eq h⟩⟩

@[simp] theorem contains_empty (c : Nat) : empty.contains c = false := rfl

theorem contains_full (hc : c ≤ maxCodePoint) : full.contains c = true :=
  contains_eq_true.mpr ⟨_, List.mem_singleton_self _, Nat.zero_le _, hc⟩

theorem mem_full : c ∈ full ↔ c ≤ maxCodePoint := by
  refine ⟨fun h => ?_, contains_full⟩
  obtain ⟨r, hr, -, hhi⟩ := mem_iff.mp h
  rwa [List.mem_singleton.mp hr] at hhi

theorem isEmpty_iff : s.isEmpty = true ↔ s = empty := by
  rw [isEmpty, List.isEmpty_iff]
  constructor
  · intro h
    cases s
    cases h
    rfl
  · rintro rfl
    rfl

/-- A set with no ranges has no members, and every range has one. -/
theorem isEmpty_iff_contains : s.isEmpty = true ↔ ∀ c, s.contains c = false := by
  constructor
  · intro h c
    rw [isEmpty_iff.mp h]
    rfl
  · intro h
    cases hs : s.ranges with
    | nil => simp [isEmpty, hs]
    | cons r rs =>
      have hr : s.contains r.lo = true :=
        contains_eq_true.mpr ⟨r, by simp [hs], Nat.le_refl _, r.lo_le_hi⟩
      rw [h] at hr
      cases hr

/-! ## The normal form -/

section Covers

variable {rs ss : List CodePointRange}

/-- The code point lies in one of the ranges. -/
def Covers (rs : List CodePointRange) (c : Nat) : Prop := ∃ r ∈ rs, r.lo ≤ c ∧ c ≤ r.hi

@[simp] theorem covers_nil : ¬Covers [] c := by simp [Covers]

@[simp] theorem covers_cons {r : CodePointRange} :
    Covers (r :: rs) c ↔ r.lo ≤ c ∧ c ≤ r.hi ∨ Covers rs c := by
  simp [Covers]

@[simp] theorem covers_append : Covers (rs ++ ss) c ↔ Covers rs c ∨ Covers ss c := by
  simp [Covers, or_and_right, exists_or]

theorem covers_flatMap {α : Type} {l : List α} {f : α → List CodePointRange} :
    Covers (l.flatMap f) c ↔ ∃ x ∈ l, Covers (f x) c := by
  simp only [Covers, List.mem_flatMap]
  constructor
  · rintro ⟨r, ⟨x, hx, hr⟩, hc⟩
    exact ⟨x, hx, r, hr, hc⟩
  · rintro ⟨x, hx, r, hr, hc⟩
    exact ⟨r, ⟨x, hx, hr⟩, hc⟩

theorem covers_map_single {α : Type} {l : List α} {f : α → Nat} :
    Covers (l.map fun x => .single (f x)) c ↔ ∃ x ∈ l, f x = c := by
  simp only [Covers, List.mem_map]
  constructor
  · rintro ⟨_, ⟨x, hx, rfl⟩, hlo, hhi⟩
    exact ⟨x, hx, Nat.le_antisymm hlo hhi⟩
  · rintro ⟨x, hx, rfl⟩
    exact ⟨_, ⟨x, hx, rfl⟩, Nat.le_refl _, Nat.le_refl _⟩

theorem covers_ranges_ofRanges : Covers (ofRanges rs).ranges c ↔ Covers rs c :=
  mem_iff.symm.trans mem_ofRanges

theorem lt_of_covers {r : CodePointRange} (h : Normal (r :: rs)) (hc : Covers rs c) :
    r.hi + 1 < c := by
  obtain ⟨s, hs, hlo, -⟩ := hc
  exact Nat.lt_of_lt_of_le ((List.pairwise_cons.mp h).1 s hs) hlo

/-- Ranges in normal form with the same members are the same. -/
theorem eq_of_covers_iff (hr : Normal rs) (hs : Normal ss) (h : ∀ c, Covers rs c ↔ Covers ss c) :
    rs = ss := by
  induction rs generalizing ss with
  | nil =>
    cases ss with
    | nil => rfl
    | cons s ss => exact absurd ((h s.lo).mpr (by simp [s.lo_le_hi])) covers_nil
  | cons r rs ih =>
    cases ss with
    | nil => exact absurd ((h r.lo).mp (by simp [r.lo_le_hi])) covers_nil
    | cons s ss =>
      have hrle := r.lo_le_hi
      have hsle := s.lo_le_hi
      have hrlater : ∀ {c}, Covers rs c → r.hi + 1 < c := lt_of_covers hr
      have hslater : ∀ {c}, Covers ss c → s.hi + 1 < c := lt_of_covers hs
      simp only [covers_cons] at h
      have hlo : r.lo = s.lo := by
        have h1 := (h r.lo).mp (.inl ⟨Nat.le_refl _, hrle⟩)
        have h2 := (h s.lo).mpr (.inl ⟨Nat.le_refl _, hsle⟩)
        grind
      -- What comes right after a range is missing.
      have hhi : r.hi = s.hi := by
        have h1 := h (r.hi + 1)
        have h2 := h (s.hi + 1)
        grind
      obtain rfl : r = s := by
        cases r
        cases s
        simp_all
      refine congrArg _ (ih hr.of_cons hs.of_cons fun c => ⟨fun hc => ?_, fun hc => ?_⟩)
      · refine ((h c).mp (.inr hc)).resolve_left fun hin => ?_
        have := hrlater hc
        omega
      · refine ((h c).mpr (.inr hc)).resolve_left fun hin => ?_
        have := hslater hc
        omega

/-- Sets with the same members are the same. -/
theorem eq_of_mem_iff (h : ∀ c, c ∈ s ↔ c ∈ t) : s = t := by
  have hranges : s.ranges = t.ranges :=
    eq_of_covers_iff s.normal t.normal fun c => mem_iff.symm.trans ((h c).trans mem_iff)
  cases s
  cases t
  cases hranges
  rfl

end Covers

/-! ## Intersection -/

private theorem overlaps_iff {rs ss : List CodePointRange} (hr : Normal rs) (hs : Normal ss) :
    Covers (overlaps rs ss) c ↔ Covers rs c ∧ Covers ss c := by
  fun_induction overlaps rs ss with
  | case1 => simp
  | case2 => simp
  | case3 r rs s ss rest t ht ih1 ih2 =>
    have hr' := lt_of_covers (c := c) hr
    have hs' := lt_of_covers (c := c) hs
    obtain ⟨hlo, hhi⟩ := CodePointRange.inter?_eq_some_iff.mp ht
    by_cases hlt : r.hi < s.hi
    · simp only [rest, hlt, dite_true, covers_cons, ih1 hr.of_cons hs]
      grind
    · simp only [rest, hlt, dite_false, covers_cons, ih2 hr hs.of_cons]
      grind
  | case4 r rs s ss rest ht ih1 ih2 =>
    have hr' := lt_of_covers (c := c) hr
    have hs' := lt_of_covers (c := c) hs
    have hgap := CodePointRange.inter?_eq_none_iff.mp ht
    by_cases hlt : r.hi < s.hi
    · simp only [rest, hlt, dite_true, covers_cons, ih1 hr.of_cons hs]
      grind
    · simp only [rest, hlt, dite_false, covers_cons, ih2 hr hs.of_cons]
      grind

@[simp] theorem contains_inter (s t : CodePointSet) (c : Nat) :
    (s.inter t).contains c = (s.contains c && t.contains c) := by
  rw [Bool.eq_iff_iff, Bool.and_eq_true, contains_eq_true, contains_eq_true, contains_eq_true]
  exact overlaps_iff s.normal t.normal

/-! ## Complement -/

private theorem gaps_iff {rs : List CodePointRange} {next : Nat} (h : Normal rs)
    (hn : ∀ r ∈ rs, next ≤ r.lo) (hc : c ≤ maxCodePoint) :
    Covers (gaps next rs) c ↔ next ≤ c ∧ ¬Covers rs c := by
  induction rs generalizing next with
  | nil =>
    unfold gaps
    split
    · simp [hc]
    · simp
      omega
  | cons r rs ih =>
    obtain ⟨hr, hrs⟩ := List.pairwise_cons.mp h
    have ih := @ih (r.hi + 1) hrs fun s hs => Nat.le_of_lt (hr s hs)
    have hlater : Covers rs c → r.hi + 1 < c := lt_of_covers h
    have hle := r.lo_le_hi
    have hnr := hn r List.mem_cons_self
    unfold gaps
    split
    · simp only [covers_cons, ih]
      grind
    · rw [ih, covers_cons]
      grind

theorem contains_compl (s : CodePointSet) (hc : c ≤ maxCodePoint) :
    s.compl.contains c = !s.contains c := by
  rw [Bool.eq_iff_iff, Bool.not_eq_true', ← Bool.not_eq_true, contains_eq_true, contains_eq_true]
  exact (gaps_iff s.normal (fun _ _ => Nat.zero_le _) hc).trans (and_iff_right (Nat.zero_le c))

/-! ## Bounds -/

/-- All members are code points of characters, or of surrogates. -/
def Bounded (s : CodePointSet) : Prop := ∀ c ∈ s, c ≤ maxCodePoint

theorem bounded_iff : s.Bounded ↔ ∀ r ∈ s.ranges, r.hi ≤ maxCodePoint := by
  constructor
  · intro h r hr
    exact h _ (mem_iff.mpr ⟨r, hr, r.lo_le_hi, Nat.le_refl _⟩)
  · intro h c hc
    obtain ⟨r, hr, -, hhi⟩ := mem_iff.mp hc
    exact Nat.le_trans hhi (h r hr)

theorem bounded_ofRanges {rs : List CodePointRange} (h : ∀ r ∈ rs, r.hi ≤ maxCodePoint) :
    (ofRanges rs).Bounded := by
  intro c hc
  obtain ⟨r, hr, -, hhi⟩ := mem_ofRanges.mp hc
  exact Nat.le_trans hhi (h r hr)

theorem bounded_single (hc : c ≤ maxCodePoint) : (single c).Bounded :=
  bounded_iff.mpr fun _ hr => List.mem_singleton.mp hr ▸ hc

private theorem hi_le_of_mem_gaps {rs : List CodePointRange} {next : Nat}
    (h : ∀ r ∈ rs, r.hi ≤ maxCodePoint) {g : CodePointRange} (hg : g ∈ gaps next rs) :
    g.hi ≤ maxCodePoint := by
  induction rs generalizing next with
  | nil =>
    unfold gaps at hg
    split at hg
    · obtain rfl := List.mem_singleton.mp hg
      exact Nat.le_refl _
    · cases hg
  | cons r rs ih =>
    have hrs : ∀ r ∈ rs, r.hi ≤ maxCodePoint := fun r hr => h r (List.mem_cons_of_mem _ hr)
    unfold gaps at hg
    split at hg
    · rcases List.mem_cons.mp hg with rfl | hg
      · have := r.lo_le_hi
        have := h r List.mem_cons_self
        show r.lo - 1 ≤ maxCodePoint
        omega
      · exact ih hrs hg
    · exact ih hrs hg

theorem Bounded.compl (h : s.Bounded) : s.compl.Bounded :=
  bounded_iff.mpr fun _ hg => hi_le_of_mem_gaps (bounded_iff.mp h) hg

theorem mem_compl (h : s.Bounded) : c ∈ s.compl ↔ c ≤ maxCodePoint ∧ c ∉ s := by
  by_cases hc : c ≤ maxCodePoint
  · show s.compl.contains c = true ↔ c ≤ maxCodePoint ∧ ¬s.contains c = true
    rw [contains_compl _ hc, Bool.not_eq_true', Bool.not_eq_true]
    exact (and_iff_right hc).symm
  · exact iff_of_false (fun h' => hc (h.compl c h')) fun h' => hc h'.1

/-! ## Characters that a set does not tell apart -/

/-- Of two related characters the set has both or neither. -/
def Blind (R : Char → Char → Prop) (s : CodePointSet) : Prop :=
  ∀ c d, R c d → s.contains c.toNat = s.contains d.toNat

namespace Blind

variable {R : Char → Char → Prop}

theorem empty : Blind R empty := fun _ _ _ => rfl

theorem full : Blind R full := fun c d _ =>
  (contains_full (toNat_le_maxCodePoint c)).trans (contains_full (toNat_le_maxCodePoint d)).symm

theorem compl (h : s.Blind R) : s.compl.Blind R := fun c d hcd => by
  rw [contains_compl _ (toNat_le_maxCodePoint c), contains_compl _ (toNat_le_maxCodePoint d),
    h c d hcd]

theorem inter (hs : s.Blind R) (ht : t.Blind R) : (s.inter t).Blind R := fun c d hcd => by
  rw [contains_inter, contains_inter, hs c d hcd, ht c d hcd]

theorem mono {R' : Char → Char → Prop} (h : s.Blind R) (hR : ∀ c d, R' c d → R c d) : s.Blind R' :=
  fun c d hcd => h c d (hR c d hcd)

end Blind

end CodePointSet

/-! ## Guards -/

namespace Guard

theorem contains_restriction (restricted : Bool) (s : CodePointSet) {c : Nat}
    (hc : c ≤ maxCodePoint) :
    (restriction restricted s).contains c = (!restricted || s.contains c) := by
  cases restricted <;> simp [restriction, CodePointSet.contains_full hc]

/-- Each of the restrictions on its own. -/
theorem contains_allowed (g : Guard) {c : Nat} (hc : c ≤ maxCodePoint) :
    g.allowed.contains c = (!g.nextEnd &&
      (!g.nextLineEnd || CodePointSet.lineTerminators.contains c) &&
      (!g.nextWord || CodePointSet.wordChars.contains c) &&
      (!g.nextNotWord || !CodePointSet.wordChars.contains c)) := by
  unfold allowed
  cases g.nextEnd with
  | true => simp
  | false =>
    simp [contains_restriction _ _ hc, CodePointSet.contains_compl _ hc, Bool.and_assoc]

end Guard

end PatternAutomata
