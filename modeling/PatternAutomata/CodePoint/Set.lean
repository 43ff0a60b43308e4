import PatternAutomata.CodePoint.Range

/-!
# Sets of code points

A `CodePointSet` is kept as its normal form: the ranges ascend and neighbours neither meet nor
touch. `mem_ofRanges` and `mem_union` say what the constructions do to the members.
-/

namespace PatternAutomata

/-- Ranges ascend, and between neighbours at least one code point is missing. -/
def CodePointSet.Normal (rs : List CodePointRange) : Prop :=
  rs.Pairwise fun r s => r.hi + 1 < s.lo

structure CodePointSet where
  ranges : List CodePointRange
  normal : CodePointSet.Normal ranges

namespace CodePointSet

instance : DecidableEq CodePointSet := fun s t =>
  decidable_of_iff (s.ranges = t.ranges) (by cases s; cases t; simp)

def empty : CodePointSet := ⟨[], .nil⟩

instance : Inhabited CodePointSet := ⟨empty⟩

def ofRange (r : CodePointRange) : CodePointSet := ⟨[r], List.pairwise_singleton ..⟩

def single (c : Nat) : CodePointSet := ofRange (.single c)

/-- All code points up to `maxCodePoint`. -/
def full : CodePointSet := ofRange { lo := 0, hi := maxCodePoint, lo_le_hi := Nat.zero_le _ }

def contains (s : CodePointSet) (c : Nat) : Bool := s.ranges.any (·.contains c)

instance : Membership Nat CodePointSet := ⟨fun s c => s.contains c = true⟩

instance (s : CodePointSet) (c : Nat) : Decidable (c ∈ s) :=
  inferInstanceAs (Decidable (s.contains c = true))

def isEmpty (s : CodePointSet) : Bool := s.ranges.isEmpty

def isFull (s : CodePointSet) : Bool := s = full

/-- Whether the set has exactly one member. -/
def isSingle (s : CodePointSet) : Bool :=
  match s.ranges with
  | [r] => r.isSingle
  | _ => false

theorem mem_iff {s : CodePointSet} {c : Nat} :
    c ∈ s ↔ ∃ r ∈ s.ranges, r.lo ≤ c ∧ c ≤ r.hi := by
  show s.contains c = true ↔ _
  simp [contains, CodePointRange.contains_iff]

/-! ## From ranges in any order -/

/-- Joins `cur` with the ranges after it that meet or touch it; all start no earlier. -/
def absorb (cur : CodePointRange) : List CodePointRange → List CodePointRange
  | [] => [cur]
  | r :: rs => if r.lo ≤ cur.hi + 1 then absorb (cur.span r) rs else cur :: absorb r rs

/-- The normal form of ranges that are sorted by where they start. -/
def coalesce : List CodePointRange → List CodePointRange
  | [] => []
  | r :: rs => absorb r rs

private theorem absorb_normal (rs : List CodePointRange) (cur : CodePointRange)
    (h : (cur :: rs).Pairwise (·.lo ≤ ·.lo)) :
    Normal (absorb cur rs) ∧ ∀ r ∈ absorb cur rs, cur.lo ≤ r.lo := by
  induction rs generalizing cur with
  | nil => simp [absorb, Normal]
  | cons r rs ih =>
    obtain ⟨hcur, hrs⟩ := List.pairwise_cons.mp h
    have hr : cur.lo ≤ r.lo := hcur r List.mem_cons_self
    unfold absorb
    split
    · have hlo : (cur.span r).lo = cur.lo := Nat.min_eq_left hr
      have h' : (cur.span r :: rs).Pairwise (·.lo ≤ ·.lo) :=
        List.pairwise_cons.mpr ⟨fun s hs => hlo ▸ hcur s (List.mem_cons_of_mem _ hs),
          (List.pairwise_cons.mp hrs).2⟩
      exact hlo ▸ ih _ h'
    · obtain ⟨hn, hle⟩ := ih r hrs
      refine ⟨List.pairwise_cons.mpr ⟨fun s hs => ?_, hn⟩, fun s hs => ?_⟩
      · have := hle s hs
        omega
      · rcases List.mem_cons.mp hs with rfl | hs
        · exact Nat.le_refl _
        · exact Nat.le_trans hr (hle s hs)

private theorem mem_absorb (rs : List CodePointRange) (cur : CodePointRange) (c : Nat)
    (h : (cur :: rs).Pairwise (·.lo ≤ ·.lo)) :
    (∃ r ∈ absorb cur rs, r.lo ≤ c ∧ c ≤ r.hi) ↔ ∃ r ∈ cur :: rs, r.lo ≤ c ∧ c ≤ r.hi := by
  induction rs generalizing cur with
  | nil => simp [absorb]
  | cons r rs ih =>
    obtain ⟨hcur, hrs⟩ := List.pairwise_cons.mp h
    have hr : cur.lo ≤ r.lo := hcur r List.mem_cons_self
    unfold absorb
    split
    · have hlo : (cur.span r).lo = cur.lo := Nat.min_eq_left hr
      have hhi : (cur.span r).hi = max cur.hi r.hi := rfl
      have h' : (cur.span r :: rs).Pairwise (·.lo ≤ ·.lo) :=
        List.pairwise_cons.mpr ⟨fun s hs => hlo ▸ hcur s (List.mem_cons_of_mem _ hs),
          (List.pairwise_cons.mp hrs).2⟩
      rw [ih _ h']
      simp only [List.mem_cons, exists_eq_or_imp, hlo, hhi]
      rw [← or_assoc]
      exact or_congr_left (by omega)
    · simp [ih r hrs]

/-- Puts a range before the first one that does not start earlier. -/
def insertByStart (r : CodePointRange) : List CodePointRange → List CodePointRange
  | [] => [r]
  | s :: ss => if r.lo ≤ s.lo then r :: s :: ss else s :: insertByStart r ss

def sortByStart (rs : List CodePointRange) : List CodePointRange := rs.foldr insertByStart []

private theorem mem_insertByStart {r t : CodePointRange} {ss : List CodePointRange} :
    t ∈ insertByStart r ss ↔ t = r ∨ t ∈ ss := by
  induction ss with
  | nil => simp [insertByStart]
  | cons s ss ih =>
    unfold insertByStart
    split
    · rw [List.mem_cons]
    · rw [List.mem_cons, List.mem_cons, ih, or_left_comm]

private theorem mem_sortByStart {r : CodePointRange} {rs : List CodePointRange} :
    r ∈ sortByStart rs ↔ r ∈ rs := by
  induction rs with
  | nil => exact Iff.rfl
  | cons s rs ih =>
    unfold sortByStart at ih ⊢
    rw [List.foldr_cons, mem_insertByStart, ih, List.mem_cons]

private theorem insertByStart_pairwise {r : CodePointRange} {ss : List CodePointRange}
    (h : ss.Pairwise (·.lo ≤ ·.lo)) : (insertByStart r ss).Pairwise (·.lo ≤ ·.lo) := by
  induction ss with
  | nil => exact List.pairwise_singleton ..
  | cons s ss ih =>
    obtain ⟨hs, hss⟩ := List.pairwise_cons.mp h
    unfold insertByStart
    split
    · rename_i hle
      refine List.pairwise_cons.mpr ⟨fun t ht => ?_, h⟩
      rcases List.mem_cons.mp ht with rfl | ht
      · exact hle
      · exact Nat.le_trans hle (hs t ht)
    · rename_i hlt
      refine List.pairwise_cons.mpr ⟨fun t ht => ?_, ih hss⟩
      rcases mem_insertByStart.mp ht with rfl | ht
      · exact Nat.le_of_not_le hlt
      · exact hs t ht

private theorem sortByStart_pairwise (rs : List CodePointRange) :
    (sortByStart rs).Pairwise (·.lo ≤ ·.lo) := by
  induction rs with
  | nil => exact .nil
  | cons r rs ih => exact insertByStart_pairwise ih

/-- The code points that lie in one of the ranges. -/
def ofRanges (rs : List CodePointRange) : CodePointSet where
  ranges := coalesce (sortByStart rs)
  normal := by
    have h := sortByStart_pairwise rs
    cases hs : sortByStart rs with
    | nil => exact .nil
    | cons r rs => exact (absorb_normal rs r (hs ▸ h)).1

theorem mem_ofRanges {rs : List CodePointRange} {c : Nat} :
    c ∈ ofRanges rs ↔ ∃ r ∈ rs, r.lo ≤ c ∧ c ≤ r.hi := by
  have h := sortByStart_pairwise rs
  have hm : ∀ r, r ∈ rs ↔ r ∈ sortByStart rs := fun r => mem_sortByStart.symm
  simp only [mem_iff, ofRanges, hm]
  cases hs : sortByStart rs with
  | nil => simp [coalesce]
  | cons r rs => exact mem_absorb rs r c (hs ▸ h)

def ofChars (cs : List Char) : CodePointSet := ofRanges (cs.map fun c => .single c.toNat)

/-- The members of either set. -/
def union (s t : CodePointSet) : CodePointSet := ofRanges (s.ranges ++ t.ranges)

theorem mem_union {s t : CodePointSet} {c : Nat} : c ∈ s.union t ↔ c ∈ s ∨ c ∈ t := by
  rw [union, mem_ofRanges, mem_iff, mem_iff]
  simp [or_and_right, exists_or]

/-! ## Complement -/

/-- The gaps between the ranges, from `next` on and up to `maxCodePoint`. -/
def gaps (next : Nat) : List CodePointRange → List CodePointRange
  | [] => if h : next ≤ maxCodePoint then [{ lo := next, hi := maxCodePoint }] else []
  | r :: rs =>
    if h : next < r.lo then { lo := next, hi := r.lo - 1 } :: gaps (r.hi + 1) rs
    else gaps (r.hi + 1) rs

private theorem gaps_normal (rs : List CodePointRange) (next bound : Nat)
    (hb : bound ≤ next) (h : Normal rs) (hn : ∀ r ∈ rs, next ≤ r.lo) :
    Normal (gaps next rs) ∧ ∀ g ∈ gaps next rs, bound ≤ g.lo := by
  induction rs generalizing next bound with
  | nil =>
    unfold gaps
    split <;> simp [Normal, hb]
  | cons r rs ih =>
    obtain ⟨hr, hrs⟩ := List.pairwise_cons.mp h
    have hle := r.lo_le_hi
    have hn' : ∀ s ∈ rs, r.hi + 1 ≤ s.lo := fun s hs => Nat.le_of_lt (hr s hs)
    have hnr := hn r List.mem_cons_self
    unfold gaps
    split
    · obtain ⟨h1, h2⟩ := ih (r.hi + 1) (r.hi + 1) (Nat.le_refl _) hrs hn'
      refine ⟨List.pairwise_cons.mpr ⟨fun g hg => ?_, h1⟩, fun g hg => ?_⟩
      · have := h2 g hg
        show r.lo - 1 + 1 < g.lo
        omega
      · rcases List.mem_cons.mp hg with rfl | hg
        · exact hb
        · have := h2 g hg
          omega
    · exact ih (r.hi + 1) bound (by omega) hrs hn'

/-- The code points up to `maxCodePoint` outside the set, and those between its ranges. -/
def compl (s : CodePointSet) : CodePointSet where
  ranges := gaps 0 s.ranges
  normal := (gaps_normal s.ranges 0 0 (Nat.le_refl _) s.normal fun _ _ => Nat.zero_le _).1

/-! ## Intersection -/

/-- The common parts, in order: whichever range ends first is done with. -/
def overlaps : List CodePointRange → List CodePointRange → List CodePointRange
  | [], _ => []
  | _, [] => []
  | r :: rs, s :: ss =>
    let rest := if r.hi < s.hi then overlaps rs (s :: ss) else overlaps (r :: rs) ss
    match r.inter? s with
    | some t => t :: rest
    | none => rest
termination_by rs ss => rs.length + ss.length

private theorem overlaps_within (rs ss : List CodePointRange) :
    ∀ t ∈ overlaps rs ss, (∃ r ∈ rs, r.lo ≤ t.lo) ∧ ∃ s ∈ ss, s.lo ≤ t.lo := by
  have part : ∀ {r s t : CodePointRange}, r.inter? s = some t → r.lo ≤ t.lo ∧ s.lo ≤ t.lo :=
    fun h => by
      have := (CodePointRange.inter?_eq_some_iff.mp h).1
      omega
  fun_induction overlaps rs ss with
  | case1 => simp
  | case2 => simp
  | case3 r rs s ss rest t ht ih1 ih2 =>
    intro u hu
    rcases List.mem_cons.mp hu with rfl | hu
    · exact ⟨⟨r, List.mem_cons_self, (part ht).1⟩, ⟨s, List.mem_cons_self, (part ht).2⟩⟩
    · grind
  | case4 r rs s ss rest ht ih1 ih2 => grind

private theorem overlaps_normal (rs ss : List CodePointRange) (hr : Normal rs) (hs : Normal ss) :
    Normal (overlaps rs ss) := by
  fun_induction overlaps rs ss with
  | case1 => exact .nil
  | case2 => exact .nil
  | case3 r rs s ss rest t ht ih1 ih2 =>
    obtain ⟨hr1, hr2⟩ := List.pairwise_cons.mp hr
    obtain ⟨hs1, hs2⟩ := List.pairwise_cons.mp hs
    have hend := (CodePointRange.inter?_eq_some_iff.mp ht).2
    refine List.pairwise_cons.mpr ⟨fun u hu => ?_, ?_⟩
    · by_cases hlt : r.hi < s.hi
      · simp only [rest, hlt] at hu
        obtain ⟨⟨r', hr', hle⟩, -⟩ := overlaps_within _ _ u hu
        have := hr1 r' hr'
        omega
      · simp only [rest, hlt] at hu
        obtain ⟨-, ⟨s', hs', hle⟩⟩ := overlaps_within _ _ u hu
        have := hs1 s' hs'
        omega
    · grind [Normal]
  | case4 r rs s ss rest ht ih1 ih2 =>
    have hr2 := (List.pairwise_cons.mp hr).2
    have hs2 := (List.pairwise_cons.mp hs).2
    grind [Normal]

/-- The members of both sets. -/
def inter (s t : CodePointSet) : CodePointSet where
  ranges := overlaps s.ranges t.ranges
  normal := overlaps_normal s.ranges t.ranges s.normal t.normal

end CodePointSet

end PatternAutomata
