import PatternAutomata.Dfa.Intervals
import PatternAutomata.Proofs.CodePoints

/-!
# Transitions by intervals

The intervals between ascending points cover all code points, and a set whose ends are among the
points does not tell the members of an interval apart. Joining the transitions of neighbouring
intervals does not change what happens on a character.
-/

namespace PatternAutomata.Dfa

/-! ## Points -/

theorem head?_ascending_zero (points : List Nat) : (ascending (0 :: points)).head? = some 0 := by
  have hmem : 0 ∈ ascending (0 :: points) := mem_ascending.mpr (by simp)
  cases h : ascending (0 :: points) with
  | nil => simp [h] at hmem
  | cons a rest =>
    rw [h] at hmem
    rcases List.mem_cons.mp hmem with rfl | hr
    · rfl
    · have := (List.pairwise_cons.mp (h ▸ ascending_pairwise (0 :: points))).1 0 hr
      omega

/-! ## Intervals -/

theorem intervalFrom_lo {lo : Nat} {later : List Nat} (h : (lo :: later).Pairwise (· < ·))
    (hlo : lo ≤ maxCodePoint) : (intervalFrom lo later).lo = lo ∧
      (intervalFrom lo later).hi =
        later.head?.elim maxCodePoint fun next => min (next - 1) maxCodePoint := by
  cases later with
  | nil => simp [intervalFrom, CodePointRange.between, hlo]
  | cons next rest =>
    have := (List.pairwise_cons.mp h).1 next (by simp)
    have hle : lo ≤ min (next - 1) maxCodePoint := by omega
    simp [intervalFrom, CodePointRange.between, hle]

/-- No interval reaches the start of a later one. -/
theorem intervals_pairwise {points : List Nat} (h : points.Pairwise (· < ·)) :
    (intervals points).Pairwise (fun r s => r.hi < s.lo) ∧
      ∀ r ∈ intervals points, r.lo ∈ points ∧ r.hi ≤ maxCodePoint := by
  induction points with
  | nil => exact ⟨.nil, by simp [intervals]⟩
  | cons lo later ih =>
    obtain ⟨ih1, ih2⟩ := ih h.of_cons
    have hlt := (List.pairwise_cons.mp h).1
    unfold intervals
    split
    · rename_i hlo
      obtain ⟨h1, h2⟩ := intervalFrom_lo h hlo
      constructor
      · refine List.pairwise_cons.mpr ⟨fun s hs => ?_, ih1⟩
        have hmem := (ih2 s hs).1
        rw [h2]
        cases later with
        | nil => simp at hmem
        | cons next rest =>
          have := hlt next (by simp)
          simp only [List.head?_cons, Option.elim_some]
          rcases List.mem_cons.mp hmem with hs | hs
          · omega
          · have := (List.pairwise_cons.mp h.of_cons).1 _ hs
            omega
      · intro r hr
        rcases List.mem_cons.mp hr with rfl | hr
        · rw [h1, h2]
          refine ⟨by simp, ?_⟩
          cases later with
          | nil => exact Nat.le_refl _
          | cons next rest => exact Nat.min_le_right ..
        · exact ⟨by simp [(ih2 r hr).1], (ih2 r hr).2⟩
    · exact ⟨ih1, fun r hr => ⟨by simp [(ih2 r hr).1], (ih2 r hr).2⟩⟩

/-- The intervals lie within the code points. -/
theorem lo_le_maxCodePoint {points : List Nat} {r : CodePointRange}
    (h : r ∈ intervals (ascending points)) : r.lo ≤ maxCodePoint :=
  Nat.le_trans r.lo_le_hi ((intervals_pairwise (ascending_pairwise _)).2 r h).2

/-- Every code point from the first point on lies in an interval in which no other point lies. -/
theorem exists_interval {lo : Nat} {later : List Nat} (h : (lo :: later).Pairwise (· < ·)) {c : Nat}
    (hlo : lo ≤ c) (hc : c ≤ maxCodePoint) :
    ∃ r ∈ intervals (lo :: later), (r.lo ≤ c ∧ c ≤ r.hi) ∧
      ∀ a ∈ lo :: later, a ≤ r.lo ∨ r.hi < a := by
  induction later generalizing lo with
  | nil =>
    obtain ⟨h1, h2⟩ := intervalFrom_lo h (Nat.le_trans hlo hc)
    refine ⟨intervalFrom lo [], by simp [intervals, Nat.le_trans hlo hc], ?_⟩
    rw [h1, h2]
    simpa using ⟨hlo, hc⟩
  | cons next rest ih =>
    have hlt := (List.pairwise_cons.mp h).1
    have hlo' : lo ≤ maxCodePoint := Nat.le_trans hlo hc
    by_cases hn : next ≤ c
    · obtain ⟨r, hr, hrc, ha⟩ := ih h.of_cons hn
      refine ⟨r, by rw [intervals, if_pos hlo']; exact List.mem_cons_of_mem _ hr, hrc, ?_⟩
      intro a hmem
      rcases List.mem_cons.mp hmem with rfl | hmem
      · have hrlo := ((intervals_pairwise h.of_cons).2 r hr).1
        exact .inl (Nat.le_of_lt (hlt _ hrlo))
      · exact ha a hmem
    · obtain ⟨h1, h2⟩ := intervalFrom_lo h hlo'
      refine ⟨intervalFrom lo (next :: rest), by simp [intervals, hlo'], ?_, ?_⟩
      · rw [h1, h2]
        simp only [List.head?_cons, Option.elim_some]
        omega
      · intro a hmem
        rw [h1, h2]
        simp only [List.head?_cons, Option.elim_some]
        rcases List.mem_cons.mp hmem with rfl | hmem
        · exact .inl (Nat.le_refl _)
        · have := hlt a hmem
          rcases List.mem_cons.mp hmem with rfl | hmem
          · omega
          · have := (List.pairwise_cons.mp h.of_cons).1 a hmem
            omega

/-- A set does not tell apart what none of its ends lies between. -/
theorem contains_eq_of_cuts {s : CodePointSet} {lo c : Nat} (hlo : lo ≤ c)
    (h : ∀ a ∈ cuts s, a ≤ lo ∨ c < a) : s.contains c = s.contains lo := by
  rw [Bool.eq_iff_iff, CodePointSet.contains_eq_true, CodePointSet.contains_eq_true]
  refine exists_congr fun r => and_congr_right fun hr => ?_
  have h1 := h r.lo (List.mem_flatMap.mpr ⟨r, hr, by simp⟩)
  have h2 := h (r.hi + 1) (List.mem_flatMap.mpr ⟨r, hr, by simp⟩)
  omega

/-! ## Joining -/

namespace Transition

/-- What a transition does, whatever its range. -/
def outcome (t : Transition) : StateId × List SlotUpdate × Option Accept :=
  (t.target, t.updates, t.accept)

/-- The transition that takes `c`, in whatever order they are listed. -/
def Takes (ts : List Transition) (c : Nat) (o : StateId × List SlotUpdate × Option Accept) : Prop :=
  ∃ t ∈ ts, t.range.contains c = true ∧ t.outcome = o

/-- The list has the last transition first, and its ranges lie below `bound`. -/
structure Descends (ts : List Transition) (bound : Nat) : Prop where
  pairwise : ts.Pairwise fun t u => u.range.hi < t.range.lo
  below : ∀ t ∈ ts, t.range.hi < bound

theorem Descends.mono {ts : List Transition} {a b : Nat} (h : Descends ts a) (hab : a ≤ b) :
    Descends ts b :=
  ⟨h.pairwise, fun t ht => Nat.lt_of_lt_of_le (h.below t ht) hab⟩

theorem descends_joinTo {ts : List Transition} {t : Transition} (h : Descends ts t.range.lo) :
    Descends (t.joinTo ts) (t.range.hi + 1) := by
  have hle := t.range.lo_le_hi
  cases ts with
  | nil => exact ⟨List.pairwise_singleton .., by simp [joinTo]⟩
  | cons last before =>
    have hlast := h.below last (by simp)
    obtain ⟨h1, h2⟩ := List.pairwise_cons.mp h.pairwise
    have hlast' := last.range.lo_le_hi
    have hspan : (last.range.span t.range).lo = last.range.lo := Nat.min_eq_left (by omega)
    have hspan' : (last.range.span t.range).hi = t.range.hi := Nat.max_eq_right (by omega)
    simp only [joinTo]
    split
    · refine ⟨List.pairwise_cons.mpr ⟨fun u hu => ?_, h2⟩, fun u hu => ?_⟩
      · rw [hspan]
        exact h1 u hu
      · rcases List.mem_cons.mp hu with rfl | hu
        · rw [hspan']
          omega
        · have := h1 u hu
          omega
    · refine ⟨List.pairwise_cons.mpr ⟨h.below, h.pairwise⟩, fun u hu => ?_⟩
      rcases List.mem_cons.mp hu with rfl | hu
      · omega
      · have := h.below u hu
        omega

theorem takes_joinTo {ts : List Transition} {t : Transition} (h : Descends ts t.range.lo) (c : Nat)
    (o : StateId × List SlotUpdate × Option Accept) :
    Takes (t.joinTo ts) c o ↔ Takes ts c o ∨ t.range.contains c = true ∧ t.outcome = o := by
  cases ts with
  | nil => simp [joinTo, Takes]
  | cons last before =>
    have hlast := h.below last (by simp)
    simp only [joinTo]
    split
    · rename_i hjoin
      obtain ⟨htouch, htarget, hupdates, haccept⟩ := hjoin
      have hc : (last.range.span t.range).contains c = true ↔
          last.range.contains c = true ∨ t.range.contains c = true := by
        simp only [CodePointRange.contains_iff, CodePointRange.span]
        have := last.range.lo_le_hi
        have := t.range.lo_le_hi
        omega
      have ho : last.outcome = t.outcome := by simp [outcome, htarget, hupdates, haccept]
      simp only [Takes, List.mem_cons, exists_eq_or_imp, hc, ho]
      show _ ∧ t.outcome = o ∨ _ ↔ _
      rw [or_and_right, or_right_comm]
    · simp only [Takes, List.mem_cons, exists_eq_or_imp]
      rw [or_comm]

/-- Leaves out what leads nowhere, and joins the rest. -/
def joined (ts : List Transition) (t : Transition) : List Transition :=
  if t.target = dead ∧ t.accept = none then ts else t.joinTo ts

/-- Where every transition leads somewhere, none is left out. -/
theorem foldl_joinTo_eq {steps : List Transition} (ts : List Transition)
    (h : ∀ t ∈ steps, ¬(t.target = dead ∧ t.accept = none)) :
    steps.foldl (fun ts t => t.joinTo ts) ts = steps.foldl joined ts := by
  induction steps generalizing ts with
  | nil => rfl
  | cons t steps ih =>
    rw [List.foldl_cons, List.foldl_cons, joined, if_neg (h t (by simp)),
      ih _ fun u hu => h u (by simp [hu])]

/-- Joining changes nothing but that some transitions are left out. -/
theorem takes_foldl_joined {steps : List Transition} {ts : List Transition} {bound : Nat}
    (h : steps.Pairwise fun t u => t.range.hi < u.range.lo) (hts : Descends ts bound)
    (hb : ∀ t ∈ steps, bound ≤ t.range.lo) :
    (∃ bound, Descends (steps.foldl joined ts) bound) ∧ ∀ c o,
      Takes (steps.foldl joined ts) c o ↔
        Takes ts c o ∨ Takes steps c o ∧ ¬(o.1 = dead ∧ o.2.2 = none) := by
  induction steps generalizing ts bound with
  | nil => exact ⟨⟨bound, hts⟩, fun c o => by simp [Takes]⟩
  | cons t steps ih =>
    obtain ⟨h1, h2⟩ := List.pairwise_cons.mp h
    have hts' := hts.mono (hb t (by simp))
    rw [List.foldl_cons]
    have hle := t.range.lo_le_hi
    have hd : Descends (joined ts t) (t.range.hi + 1) := by
      unfold joined
      split
      · exact hts'.mono (by omega)
      · exact descends_joinTo hts'
    obtain ⟨ih1, ih2⟩ := ih h2 hd fun u hu => h1 u hu
    refine ⟨ih1, fun c o => ?_⟩
    have hcons : Takes (t :: steps) c o ↔
        (t.range.contains c = true ∧ t.outcome = o) ∨ Takes steps c o := by
      simp [Takes]
    have hjoined : Takes (joined ts t) c o ↔ Takes ts c o ∨
        (t.range.contains c = true ∧ t.outcome = o) ∧ ¬(o.1 = dead ∧ o.2.2 = none) := by
      unfold joined
      split
      · rename_i hdead
        constructor
        · exact .inl
        · rintro (h | ⟨⟨-, rfl⟩, hne⟩)
          · exact h
          · exact absurd hdead hne
      · rename_i hdead
        rw [takes_joinTo hts']
        refine or_congr_right ⟨fun h => ⟨h, ?_⟩, And.left⟩
        obtain ⟨-, rfl⟩ := h
        exact hdead
    rw [ih2, hcons, hjoined, or_and_right, or_assoc]

/-- Whatever is joined does what one of the transitions does. -/
theorem exists_of_mem_foldl_joined {steps ts : List Transition} {t : Transition}
    (h : t ∈ steps.foldl joined ts) :
    (∃ u ∈ ts, u.outcome = t.outcome) ∨ ∃ u ∈ steps, u.outcome = t.outcome := by
  induction steps generalizing ts with
  | nil => exact .inl ⟨t, h, rfl⟩
  | cons s steps ih =>
    rcases ih h with ⟨u, hu, ho⟩ | ⟨u, hu, ho⟩
    · unfold joined at hu
      split at hu
      · exact .inl ⟨u, hu, ho⟩
      · cases ts with
        | nil =>
          obtain rfl := List.mem_singleton.mp hu
          exact .inr ⟨u, by simp, ho⟩
        | cons last before =>
          simp only [joinTo] at hu
          split at hu
          · rcases List.mem_cons.mp hu with rfl | hu
            · exact .inr ⟨s, by simp, ho⟩
            · exact .inl ⟨u, by simp [hu], ho⟩
          · rcases List.mem_cons.mp hu with rfl | hu
            · exact .inr ⟨u, by simp, ho⟩
            · exact .inl ⟨u, hu, ho⟩
    · exact .inr ⟨u, by simp [hu], ho⟩

/-- Of transitions that are sorted, at most one has a character. -/
theorem find?_iff {ts : List Transition} (h : ts.Pairwise fun t u => t.range.hi < u.range.lo) {c : Nat}
    {t : Transition} :
    ts.find? (·.range.contains c) = some t ↔ t ∈ ts ∧ t.range.contains c = true := by
  induction ts with
  | nil => simp
  | cons u us ih =>
    obtain ⟨h1, h2⟩ := List.pairwise_cons.mp h
    by_cases hu : u.range.contains c = true
    · simp only [List.find?_cons, hu, Option.some.injEq]
      constructor
      · rintro rfl
        exact ⟨by simp, hu⟩
      · rintro ⟨hmem, ht⟩
        rcases List.mem_cons.mp hmem with rfl | hmem
        · rfl
        · have := h1 t hmem
          rw [CodePointRange.contains_iff] at hu ht
          omega
    · simp only [List.find?_cons, hu, ih h2, List.mem_cons]
      constructor
      · exact fun h => ⟨.inr h.1, h.2⟩
      · rintro ⟨rfl | hmem, ht⟩
        · exact absurd ht hu
        · exact ⟨hmem, ht⟩

theorem eq_of_contains {ts : List Transition} (h : ts.Pairwise fun t u => t.range.hi < u.range.lo)
    {c : Nat} {t u : Transition} (ht : t ∈ ts) (htc : t.range.contains c = true) (hu : u ∈ ts)
    (huc : u.range.contains c = true) : u = t :=
  Option.some.inj (((find?_iff h).mpr ⟨hu, huc⟩).symm.trans ((find?_iff h).mpr ⟨ht, htc⟩))

theorem Descends.reverse_pairwise {ts : List Transition} {bound : Nat} (h : Descends ts bound) :
    ts.reverse.Pairwise fun t u => t.range.hi < u.range.lo := List.pairwise_reverse.mpr h.pairwise

/-- The transitions are sorted, their ranges do not overlap, and they stay within the code points. -/
structure Ascends (ts : List Transition) : Prop where
  pairwise : ts.Pairwise fun t u => t.range.hi < u.range.lo
  le_max : ∀ t ∈ ts, t.range.hi ≤ maxCodePoint

theorem ascends_nil : Ascends [] := ⟨.nil, by simp⟩

theorem Ascends.find?_eq {ts : List Transition} (h : Ascends ts) {t : Transition} (ht : t ∈ ts)
    {c : Nat} (hc : t.range.contains c = true) : ts.find? (·.range.contains c) = some t :=
  (find?_iff h.pairwise).mpr ⟨ht, hc⟩

theorem pairwise_of_intervals {l : List Transition} {points : List Nat}
    (hp : points.Pairwise (· < ·)) (hl : l.map (·.range) = intervals points) :
    l.Pairwise fun t u => t.range.hi < u.range.lo := by
  have := (intervals_pairwise hp).1
  rwa [← hl, List.pairwise_map] at this

/-- One transition for each interval, and joined: they are sorted. -/
theorem ascends_joined {l : List Transition} {points : List Nat} (hp : points.Pairwise (· < ·))
    (hl : l.map (·.range) = intervals points) : Ascends (l.foldl joined []).reverse := by
  obtain ⟨⟨bound, hd⟩, htakes⟩ := takes_foldl_joined (pairwise_of_intervals hp hl)
    (show Descends [] 0 from ⟨.nil, by simp⟩) fun _ _ => Nat.zero_le _
  refine ⟨hd.reverse_pairwise, fun t ht => ?_⟩
  -- The last character of a joined range is in the range of one of the transitions.
  have hlast : t.range.contains t.range.hi = true :=
    CodePointRange.contains_iff.mpr ⟨t.range.lo_le_hi, Nat.le_refl _⟩
  rcases (htakes t.range.hi t.outcome).mp ⟨t, List.mem_reverse.mp ht, hlast, rfl⟩ with
    ⟨u, hu, -⟩ | ⟨⟨u, hu, huc, -⟩, -⟩
  · cases hu
  · have hmem : u.range ∈ intervals points := hl ▸ List.mem_map_of_mem hu
    exact Nat.le_trans (CodePointRange.contains_iff.mp huc).2 ((intervals_pairwise hp).2 _ hmem).2

/-- If what happens on a character is known, that is what its transition says. -/
theorem find?_of_takes {ts : List Transition} {bound c : Nat} (hd : Descends ts bound)
    {o : StateId × List SlotUpdate × Option Accept}
    (h : ∀ o', Takes ts c o' ↔ o' = o ∧ ¬(o.1 = dead ∧ o.2.2 = none)) :
    (ts.reverse.find? (·.range.contains c)).map outcome =
      if o.1 = dead ∧ o.2.2 = none then none else some o := by
  cases hf : ts.reverse.find? (·.range.contains c) with
  | none =>
    split
    · rfl
    · rename_i hne
      obtain ⟨u, hu, huc, -⟩ := (h o).mpr ⟨rfl, hne⟩
      rw [(find?_iff hd.reverse_pairwise).mpr ⟨List.mem_reverse.mpr hu, huc⟩] at hf
      cases hf
  | some u =>
    obtain ⟨hu, huc⟩ := (find?_iff hd.reverse_pairwise).mp hf
    obtain ⟨ho, hne⟩ := (h u.outcome).mp ⟨u, List.mem_reverse.mp hu, huc, rfl⟩
    rw [if_neg hne, Option.map_some, ho]

/-- One transition for each interval, and joined: the one whose interval has `c` says what happens
on `c`. -/
theorem find?_joined {l : List Transition} {points : List Nat} (hp : points.Pairwise (· < ·))
    (h0 : points.head? = some 0) (hl : l.map (·.range) = intervals points) {c : Nat}
    (hc : c ≤ maxCodePoint) :
    ∃ t ∈ l, (t.range.lo ≤ c ∧ ∀ a ∈ points, a ≤ t.range.lo ∨ c < a) ∧
      ((l.foldl joined []).reverse.find? (·.range.contains c)).map outcome =
        if t.target = dead ∧ t.accept = none then none else some t.outcome := by
  obtain ⟨later, rfl⟩ : ∃ later, points = 0 :: later := by
    cases points with
    | nil => cases h0
    | cons a later =>
      cases h0
      exact ⟨later, rfl⟩
  obtain ⟨r, hr, ⟨hlo, hhi⟩, hpoints⟩ := exists_interval hp (Nat.zero_le c) hc
  rw [← hl] at hr
  obtain ⟨t, ht, rfl⟩ := List.mem_map.mp hr
  have htc : t.range.contains c = true := CodePointRange.contains_iff.mpr ⟨hlo, hhi⟩
  refine ⟨t, ht, ⟨hlo, fun a ha => (hpoints a ha).imp_right (Nat.lt_of_le_of_lt hhi)⟩, ?_⟩
  have hpair := pairwise_of_intervals hp hl
  obtain ⟨⟨bound, hd⟩, htakes⟩ := takes_foldl_joined hpair
    (show Descends [] 0 from ⟨.nil, by simp⟩) fun _ _ => Nat.zero_le _
  refine find?_of_takes (o := t.outcome) hd fun o => ?_
  rw [htakes]
  constructor
  · rintro (⟨u, hu, -⟩ | ⟨⟨u, hu, huc, rfl⟩, hne⟩)
    · cases hu
    · obtain rfl := eq_of_contains hpair ht htc hu huc
      exact ⟨rfl, hne⟩
  · rintro ⟨rfl, hne⟩
    exact .inr ⟨⟨t, ht, htc, rfl⟩, hne⟩

end Transition

end PatternAutomata.Dfa
