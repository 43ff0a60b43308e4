import Mathlib.Algebra.GroupWithZero.Nat
import Mathlib.Logic.Relation
import PatternAutomata.Graph.Components

/-!
# Searching graphs

A visit with enough fuel finds exactly what can be reached through the vertices that it may visit,
each vertex once. Each step takes a pending vertex and may add those that edges lead to, and each
edge is followed once; so pending vertices and edges not yet followed together become fewer. From
two visits the component of a vertex is found, and from one component after the other all of them.
-/

namespace PatternAutomata.Graph

variable {g : Graph}

/-! ## Paths -/

/-- Edges lead from `v` to `w` through vertices of `P` only, both ends included. -/
def Joins (g : Graph) (P : Nat → Prop) (v w : Nat) : Prop :=
  P v ∧ Relation.ReflTransGen (fun a b => b ∈ g.next a ∧ P b) v w

namespace Joins

variable {P Q : Nat → Prop} {u v w : Nat}

theorem refl (hv : P v) : Joins g P v v := ⟨hv, .refl⟩

theorem right (h : Joins g P v w) : P w := by
  rcases h.2.cases_tail with rfl | ⟨_, _, _, hw⟩
  · exact h.1
  · exact hw

theorem tail (h : Joins g P u v) (hvw : w ∈ g.next v) (hw : P w) : Joins g P u w :=
  ⟨h.1, h.2.tail ⟨hvw, hw⟩⟩

theorem trans (h : Joins g P u v) (h' : Joins g P v w) : Joins g P u w := ⟨h.1, h.2.trans h'.2⟩

theorem head (hu : P u) (huv : v ∈ g.next u) (h : Joins g P v w) : Joins g P u w :=
  (tail (refl hu) huv h.1).trans h

theorem mono (hPQ : ∀ a, P a → Q a) (h : Joins g P v w) : Joins g Q v w :=
  ⟨hPQ v h.1, Relation.ReflTransGen.mono (fun _ b hb => ⟨hb.1, hPQ b hb.2⟩) _ _ h.2⟩

theorem induction {motive : Nat → Prop} (h : Joins g P v w) (hv : motive v)
    (hstep : ∀ a b, Joins g P v a → b ∈ g.next a → P b → motive a → motive b) : motive w := by
  obtain ⟨hPv, h⟩ := h
  induction h with
  | refl => exact hv
  | tail hpath hb ih => exact hstep _ _ ⟨hPv, hpath⟩ hb.1 hb.2 ih

/-- Only by an edge another vertex is reached. -/
theorem exists_next (h : Joins g P v w) (hne : v ≠ w) : ∃ u ∈ g.next v, P u := by
  rcases h.2.cases_head with rfl | ⟨u, hu, -⟩
  · exact absurd rfl hne
  · exact ⟨u, hu.1, hu.2⟩

/-- All vertices on a path from `v` to `w` are reached from `v` and reach `w`. -/
theorem strengthen (h : Joins g P v w) : Joins g (fun a => Joins g P v a ∧ Joins g P a w) v w := by
  have hpath : ∀ a, Joins g P v a → Joins g P a w →
      Joins g (fun b => Joins g P v b ∧ Joins g P b w) v a := by
    intro a hva
    refine hva.induction (motive := fun a => Joins g P a w → Joins g _ v a)
      (fun haw => refl ⟨refl h.1, haw⟩) fun a b hva hb hPb ih hbw => ?_
    have haw := head hva.right hb hbw
    exact (ih haw).tail hb ⟨hva.tail hb hPb, hbw⟩
  exact hpath w h (refl h.right)

/-- What is reached is `x`, or what comes after it, or is reached without `x`. -/
theorem avoid (h : Joins g P v w) (x : Nat) :
    w = x ∨ (∃ y ∈ g.next x, Joins g (fun a => P a ∧ a ≠ x) y w) ∨
      Joins g (fun a => P a ∧ a ≠ x) v w := by
  refine h.induction (motive := fun w => w = x ∨
    (∃ y ∈ g.next x, Joins g (fun a => P a ∧ a ≠ x) y w) ∨ Joins g (fun a => P a ∧ a ≠ x) v w) ?_
    fun a b _ hb hPb ih => ?_
  · by_cases hv : v = x
    · exact .inl hv
    · exact .inr (.inr (refl ⟨h.1, hv⟩))
  · by_cases hbx : b = x
    · exact .inl hbx
    · rcases ih with rfl | ⟨y, hy, hya⟩ | hva
      · exact .inr (.inl ⟨b, hb, refl ⟨hPb, hbx⟩⟩)
      · exact .inr (.inl ⟨y, hy, hya.tail hb ⟨hPb, hbx⟩⟩)
      · exact .inr (.inr (hva.tail hb ⟨hPb, hbx⟩))

theorem congr (hPQ : ∀ a, P a ↔ Q a) : Joins g P v w ↔ Joins g Q v w :=
  ⟨mono fun a => (hPQ a).mp, mono fun a => (hPQ a).mpr⟩

/-- What is reached from pending vertices is the first one, or is reached without it from its ends or
from the others. -/
theorem exists_cons_iff (hv : P v) {work : List Nat} : (∃ u ∈ v :: work, Joins g P u w) ↔
    (∃ u ∈ g.next v ++ work, Joins g (fun a => P a ∧ a ≠ v) u w) ∨ w = v := by
  constructor
  · rintro ⟨u, hu, hjoins⟩
    rcases hjoins.avoid v with rfl | ⟨y, hy, hyw⟩ | huw
    · exact .inr rfl
    · exact .inl ⟨y, List.mem_append_left _ hy, hyw⟩
    · refine .inl ⟨u, List.mem_append_right _ ?_, huw⟩
      exact (List.mem_cons.mp hu).resolve_left huw.1.2
  · rintro (⟨u, hu, hjoins⟩ | rfl)
    · have hjoins := hjoins.mono fun a ha => ha.1
      rcases List.mem_append.mp hu with hu | hu
      · exact ⟨v, by simp, .head hv hu hjoins⟩
      · exact ⟨u, by simp [hu], hjoins⟩
    · exact ⟨w, by simp, .refl hv⟩

theorem exists_cons_iff_of_not (hv : ¬P v) {work : List Nat} :
    (∃ u ∈ v :: work, Joins g P u w) ↔ ∃ u ∈ work, Joins g P u w := by
  constructor
  · rintro ⟨u, hu, hjoins⟩
    refine ⟨u, (List.mem_cons.mp hu).resolve_left ?_, hjoins⟩
    rintro rfl
    exact hv hjoins.1
  · rintro ⟨u, hu, hjoins⟩
    exact ⟨u, by simp [hu], hjoins⟩

end Joins

/-! ## Counting edges -/

/-- The number of ends in those lists that are active. -/
def activeEnds : List (List Nat) → List Bool → Nat
  | ends :: rest, active :: actives => (if active then ends.length else 0) + activeEnds rest actives
  | _, _ => 0

theorem activeEnds_set (ends : List (List Nat)) (actives : List Bool) (v : Nat)
    (h : actives[v]? = some true) :
    activeEnds ends (actives.set v false) + (ends[v]?.getD []).length = activeEnds ends actives := by
  induction actives generalizing ends v with
  | nil => simp at h
  | cons active actives ih =>
    cases ends with
    | nil => simp [activeEnds]
    | cons e ends =>
      cases v with
      | zero =>
        obtain rfl : active = true := by simpa using h
        simp [activeEnds]
        omega
      | succ v =>
        have := ih ends v (by simpa using h)
        simp only [activeEnds, List.set_cons_succ, List.getElem?_cons_succ]
        omega

theorem activeEnds_le (ends : List (List Nat)) (actives : List Bool) :
    activeEnds ends actives ≤ (ends.map List.length).sum := by
  induction ends generalizing actives with
  | nil => simp [activeEnds]
  | cons e ends ih =>
    cases actives with
    | nil => simp [activeEnds]
    | cons active actives =>
      have := ih actives
      simp only [activeEnds, List.map_cons, List.sum_cons]
      split <;> omega

section OpenEdges

variable {μ : Type}

/-- The number of edges of the vertices with marks that satisfy `p`. -/
def openEdges (g : Graph) (p : μ → Bool) (marks : Array μ) : Nat :=
  activeEnds g.toList (marks.toList.map p)

theorem openEdges_le (g : Graph) (p : μ → Bool) (marks : Array μ) :
    openEdges g p marks ≤ g.edgeCount := by
  have hcount : g.edgeCount = (g.toList.map List.length).sum := by
    unfold edgeCount
    rw [← Array.foldl_toList, ← List.foldl_map (f := List.length) (g := (· + ·)),
      List.sum_eq_foldl]
  rw [hcount]
  exact activeEnds_le ..

/-- The edges of a vertex that is no longer open do not count. -/
theorem openEdges_set (g : Graph) (p : μ → Bool) {marks : Array μ} {v : Nat} {m : μ} (m' : μ)
    (hv : marks[v]? = some m) (hm : p m = true) (hm' : p m' = false) :
    openEdges g p (marks.setIfInBounds v m') + (g.next v).length = openEdges g p marks := by
  have hnext : (g.toList[v]?.getD []) = g.next v := by
    rw [next, Array.getD_eq_getD_getElem?, Array.getElem?_toList]
  rw [openEdges, openEdges, Array.toList_setIfInBounds, List.map_set, hm', ← hnext]
  exact activeEnds_set _ _ v (by rw [List.getElem?_map, Array.getElem?_toList, hv, Option.map_some, hm])

end OpenEdges

/-! ## Visiting -/

section Visit

variable {marks : Array Mark} {src dst m : Mark} {v w : Nat}

/-- The vertices with a mark. A vertex outside the graph counts as closed. -/
def Marked (marks : Array Mark) (m : Mark) (v : Nat) : Prop := marks.getD v .closed = m

theorem getElem?_of_marked (hm : m ≠ .closed) (h : Marked marks m v) : marks[v]? = some m := by
  rw [Marked, Array.getD_eq_getD_getElem?] at h
  cases hv : marks[v]? with
  | none =>
    rw [hv] at h
    exact absurd h.symm hm
  | some m' =>
    rw [hv] at h
    exact congrArg some h

theorem getD_setIfInBounds_of_lt {α : Type} {a : Array α} {i : Nat} (hi : i < a.size) (x d : α)
    (j : Nat) : (a.setIfInBounds i x).getD j d = if j = i then x else a.getD j d := by
  simp only [Array.getD_eq_getD_getElem?, Array.getElem?_setIfInBounds]
  by_cases h : i = j
  · subst h
    simp [hi]
  · rw [if_neg h, if_neg (Ne.symm h)]

theorem getD_setIfInBounds (hv : marks[v]? ≠ none) :
    (marks.setIfInBounds v m).getD w .closed = if w = v then m else marks.getD w .closed := by
  have hlt : v < marks.size := Nat.lt_of_not_le fun hle =>
    hv (Array.getElem?_eq_none_iff.mpr hle)
  exact getD_setIfInBounds_of_lt hlt m .closed w

theorem marked_setIfInBounds (hv : marks[v]? ≠ none) (hne : src ≠ dst) :
    Marked (marks.setIfInBounds v dst) src w ↔ Marked marks src w ∧ w ≠ v := by
  rw [Marked, getD_setIfInBounds hv, Marked]
  by_cases hw : w = v
  · simp [hw, Ne.symm hne]
  · simp [hw]

/-- A visit finds what can be reached through the vertices marked `src`, and marks it. -/
theorem visit_spec (g : Graph) (marks : Array Mark) (work found : List Nat) {fuel : Nat}
    (hsrc : src ≠ .closed) (hne : src ≠ dst)
    (hfuel : work.length + openEdges g (decide <| · = src) marks < fuel) :
    ∃ new marks', visit g src dst fuel work found marks = (new ++ found, marks') ∧ new.Nodup ∧
      (∀ w, w ∈ new ↔ ∃ v ∈ work, Joins g (Marked marks src) v w) ∧ marks'.size = marks.size ∧
      ∀ w, marks'.getD w .closed = if w ∈ new then dst else marks.getD w .closed := by
  induction fuel generalizing work found marks with
  | zero => omega
  | succ fuel ih =>
    cases work with
    | nil => exact ⟨[], marks, rfl, .nil, by simp, rfl, by simp⟩
    | cons v work =>
      rw [List.length_cons] at hfuel
      unfold visit
      by_cases hv : marks.getD v .closed = src
      · simp only [if_pos hv]
        have hsome := getElem?_of_marked hsrc hv
        have hvalid : marks[v]? ≠ none := by simp [hsome]
        have hedges := openEdges_set g (decide <| · = src) dst hsome (decide_eq_true rfl)
          (decide_eq_false (Ne.symm hne))
        obtain ⟨new, marks', heq, hnodup, hnew, hsize, hmarks⟩ := ih (marks.setIfInBounds v dst)
          (g.next v ++ work) (v :: found) (by rw [List.length_append]; omega)
        have hfresh : v ∉ new := fun hmem => by
          obtain ⟨u, -, hu⟩ := (hnew v).mp hmem
          exact ((marked_setIfInBounds hvalid hne).mp hu.right).2 rfl
        have hnodup : (new ++ [v]).Nodup := List.nodup_append.mpr
          ⟨hnodup, by simp, fun a ha b hb => by
            rw [List.mem_singleton.mp hb]
            exact fun heq => hfresh (heq ▸ ha)⟩
        refine ⟨new ++ [v], marks', by rw [heq, List.append_assoc]; rfl, hnodup, fun w => ?_,
          hsize.trans (Array.size_setIfInBounds ..), fun w => ?_⟩
        · rw [List.mem_append, List.mem_singleton, hnew, Joins.exists_cons_iff hv]
          simp only [Joins.congr fun a => marked_setIfInBounds (w := a) hvalid hne]
        · rw [hmarks, getD_setIfInBounds hvalid]
          by_cases hw : w = v
          · simp [hw]
          · simp [hw]
      · simp only [if_neg hv]
        obtain ⟨new, marks', heq, hnodup, hnew, hsize, hmarks⟩ := ih marks work found (by omega)
        exact ⟨new, marks', heq, hnodup,
          fun w => (hnew w).trans (Joins.exists_cons_iff_of_not hv).symm, hsize, hmarks⟩

/-- What can be reached from one vertex. -/
theorem reach_spec (g : Graph) (marks : Array Mark) (hsrc : src ≠ .closed) (hne : src ≠ dst)
    (v : Nat) :
    ∃ new marks', g.reach src dst v marks = (new, marks') ∧ new.Nodup ∧
      (∀ w, w ∈ new ↔ Joins g (Marked marks src) v w) ∧ marks'.size = marks.size ∧
      ∀ w, marks'.getD w .closed = if w ∈ new then dst else marks.getD w .closed := by
  have hfuel : [v].length + openEdges g (decide <| · = src) marks < g.edgeCount + 2 := by
    have := openEdges_le g (decide <| · = src) marks
    rw [List.length_singleton]
    omega
  obtain ⟨new, marks', heq, hnodup, hnew, hsize, hmarks⟩ := visit_spec g marks [v] [] hsrc hne hfuel
  rw [List.append_nil] at heq
  exact ⟨new, marks', heq, hnodup, by simpa using hnew, hsize, hmarks⟩

end Visit

/-! ## Turning edges around -/

section Transpose

theorem getD_modify {t : Array (List Nat)} {f : List Nat → List Nat} {v w : Nat} :
    (t.modify w f).getD v [] = if v = w ∧ v < t.size then f (t.getD v []) else t.getD v [] := by
  simp only [Array.getD_eq_getD_getElem?, Array.getElem?_modify]
  by_cases hvw : w = v
  · subst hvw
    by_cases hlt : w < t.size
    · simp [hlt]
    · simp [hlt]
  · rw [if_neg hvw, if_neg fun h => hvw h.1.symm]

theorem mem_foldl_modify (ends : List Nat) (t : Array (List Nat)) (u v w : Nat) :
    (ends.foldl (fun t w => t.modify w (v :: ·)) t).size = t.size ∧
      (u ∈ (ends.foldl (fun t w => t.modify w (v :: ·)) t).getD w [] ↔
        u ∈ t.getD w [] ∨ u = v ∧ w ∈ ends ∧ w < t.size) := by
  induction ends generalizing t with
  | nil => exact ⟨rfl, by simp⟩
  | cons e ends ih =>
    obtain ⟨hsize, hmem⟩ := ih (t.modify e (v :: ·))
    rw [List.foldl_cons]
    refine ⟨hsize.trans (Array.size_modify ..), hmem.trans ?_⟩
    rw [getD_modify, Array.size_modify]
    by_cases hw : w = e ∧ w < t.size
    · obtain ⟨rfl, hlt⟩ := hw
      simp only [hlt, and_self, ite_true, List.mem_cons, true_or, and_true]
      constructor
      · rintro ((h | h) | ⟨h, -⟩)
        · exact .inr h
        · exact .inl h
        · exact .inr h
      · rintro (h | h)
        · exact .inl (.inr h)
        · exact .inl (.inl h)
    · rw [if_neg hw, List.mem_cons]
      refine or_congr_right ⟨fun ⟨hu, hw', hlt⟩ => ⟨hu, .inr hw', hlt⟩, fun ⟨hu, hw', hlt⟩ => ?_⟩
      exact ⟨hu, hw'.resolve_left fun heq => hw ⟨heq, hlt⟩, hlt⟩

theorem mem_foldl_transposed (v w : Nat) (l : List (List Nat × Nat)) (t : Array (List Nat)) :
    v ∈ (l.foldl (fun t (ends, v) => ends.foldl (fun t w => t.modify w (v :: ·)) t) t).getD w [] ↔
      v ∈ t.getD w [] ∨ (∃ ends, (ends, v) ∈ l ∧ w ∈ ends) ∧ w < t.size := by
  induction l generalizing t with
  | nil => simp
  | cons x l ih =>
    obtain ⟨ends, u⟩ := x
    obtain ⟨hsize, hmem⟩ := mem_foldl_modify ends t v u w
    rw [List.foldl_cons, ih, hsize, hmem]
    constructor
    · rintro ((h | ⟨rfl, h, hlt⟩) | ⟨⟨ends', hl, hw⟩, hlt⟩)
      · exact .inl h
      · exact .inr ⟨⟨ends, by simp, h⟩, hlt⟩
      · exact .inr ⟨⟨ends', by simp [hl], hw⟩, hlt⟩
    · rintro (h | ⟨⟨ends', hl, hw⟩, hlt⟩)
      · exact .inl (.inl h)
      · rcases List.mem_cons.mp hl with heq | hl
        · cases heq
          exact .inl (.inr ⟨rfl, hw, hlt⟩)
        · exact .inr ⟨⟨ends', hl, hw⟩, hlt⟩

/-- The edges of the transposed graph lead back. -/
theorem mem_next_transpose {v w : Nat} :
    v ∈ g.transpose.next w ↔ w ∈ g.next v ∧ w < g.size := by
  have hstart : (Array.replicate g.size ([] : List Nat)).getD w [] = [] := by
    rw [Array.getD_eq_getD_getElem?, Array.getElem?_replicate]
    split <;> rfl
  rw [next, transpose, mem_foldl_transposed, hstart, Array.size_replicate]
  simp only [List.not_mem_nil, false_or, List.mem_zipIdx_iff_getElem?, Array.getElem?_toList]
  refine and_congr_left fun _ => ?_
  rw [next, Array.getD_eq_getD_getElem?]
  cases g[v]? with
  | none => simp
  | some ends => simp

theorem joins_transpose {P : Nat → Prop} (hP : ∀ v, P v → v < g.size) {v w : Nat} :
    Joins g.transpose P v w ↔ Joins g P w v := by
  constructor
  · intro h
    refine h.induction (motive := fun w => Joins g P w v) (.refl h.1) fun a b _ hb hPb ih => ?_
    exact .head hPb (mem_next_transpose.mp hb).1 ih
  · intro h
    refine h.induction (motive := fun v => Joins g.transpose P v w) (.refl h.1)
      fun a b _ hb hPb ih => ?_
    exact .head hPb (mem_next_transpose.mpr ⟨hb, hP b hPb⟩) ih

end Transpose

/-! ## Finishing -/

section Finishing

variable {starts : List Nat}

/-- How many steps the frames may take: each edge is followed, and the end of each may be finished. -/
def pending (frames : List (Nat × List Nat)) : Nat :=
  (frames.map fun frame => 2 * frame.2.length + 1).sum

/-- What is finished, stands in a frame or is an end that was not seen yet is finished in the end, and
the vertex of the last frame comes last of all. -/
structure Finishes (frames : List (Nat × List Nat)) (seen : Array Bool) (order result : List Nat) :
    Prop where
  finished : ∀ v ∈ order, v ∈ result
  vertex : ∀ frame ∈ frames, frame.1 ∈ result
  ends : ∀ frame ∈ frames, ∀ w ∈ frame.2, seen.getD w true = false → w ∈ result
  last : ∀ last, (frames.map (·.1)).getLast? = some last → result.head? = some last
  nothing : frames = [] → result = order

namespace Finishes

variable {frames : List (Nat × List Nat)} {seen : Array Bool} {order result next ws : List Nat}
  {v w : Nat}

theorem nil : Finishes [] seen order order where
  finished _ hv := hv
  vertex _ h := absurd h List.not_mem_nil
  ends _ h := absurd h List.not_mem_nil
  last _ h := by cases h
  nothing _ := rfl

/-- The vertex of a frame without further ends is finished. -/
theorem done (h : Finishes frames seen (v :: order) result) :
    Finishes ((v, []) :: frames) seen order result where
  finished u hu := h.finished u (List.mem_cons_of_mem _ hu)
  vertex frame hframe := by
    rcases List.mem_cons.mp hframe with rfl | hframe
    · exact h.finished v (by simp)
    · exact h.vertex frame hframe
  ends frame hframe := by
    rcases List.mem_cons.mp hframe with rfl | hframe
    · exact fun w hw => absurd hw List.not_mem_nil
    · exact h.ends frame hframe
  last last hlast := by
    cases frames with
    | nil =>
      cases hlast
      rw [h.nothing rfl]
      rfl
    | cons frame frames => exact h.last last (by simpa using hlast)
  nothing hnil := by cases hnil

theorem ofSeen (h : Finishes ((v, ws) :: frames) seen order result) (hw : seen.getD w true = true) :
    Finishes ((v, w :: ws) :: frames) seen order result where
  finished := h.finished
  vertex frame hframe := by
    rcases List.mem_cons.mp hframe with rfl | hframe
    · exact h.vertex (v, ws) (by simp)
    · exact h.vertex frame (List.mem_cons_of_mem _ hframe)
  ends frame hframe u hu hfalse := by
    rcases List.mem_cons.mp hframe with rfl | hframe
    · rcases List.mem_cons.mp hu with rfl | hu
      · cases hw.symm.trans hfalse
      · exact h.ends (v, ws) (by simp) u hu hfalse
    · exact h.ends frame (List.mem_cons_of_mem _ hframe) u hu hfalse
  last := h.last
  nothing hnil := by cases hnil

/-- An end that was not seen is seen from now on, and gets a frame of its own. -/
theorem descend
    (h : Finishes ((w, next) :: (v, ws) :: frames) (seen.setIfInBounds w true) order result) :
    Finishes ((v, w :: ws) :: frames) seen order result := by
  have hw : w ∈ result := h.vertex (w, next) (by simp)
  have hends : ∀ frame ∈ (v, ws) :: frames, ∀ u ∈ frame.2, seen.getD u true = false →
      u ∈ result := by
    intro frame hframe u hu hfalse
    by_cases huw : w = u
    · exact huw ▸ hw
    · refine h.ends frame (List.mem_cons_of_mem _ hframe) u hu ?_
      rw [Array.getD_eq_getD_getElem?, Array.getElem?_setIfInBounds, if_neg huw]
      rwa [Array.getD_eq_getD_getElem?] at hfalse
  refine ⟨h.finished, fun frame hframe => ?_, fun frame hframe u hu hfalse => ?_, h.last,
    fun hnil => by cases hnil⟩
  · rcases List.mem_cons.mp hframe with rfl | hframe
    · exact h.vertex (v, ws) (by simp)
    · exact h.vertex frame (by simp [hframe])
  · rcases List.mem_cons.mp hframe with rfl | hframe
    · rcases List.mem_cons.mp hu with rfl | hu
      · exact hw
      · exact hends (v, ws) (by simp) u hu hfalse
    · exact hends frame (List.mem_cons_of_mem _ hframe) u hu hfalse

end Finishes

theorem finishing_spec (g : Graph) (frames : List (Nat × List Nat)) (seen : Array Bool)
    (order : List Nat) {fuel : Nat} (hfuel : pending frames + 2 * openEdges g (!·) seen < fuel) :
    Finishes frames seen order (finishing g fuel frames seen order) := by
  induction fuel generalizing frames seen order with
  | zero => omega
  | succ fuel ih =>
    match frames with
    | [] => exact .nil
    | (v, []) :: frames =>
      simp only [pending, List.map_cons, List.sum_cons] at hfuel
      exact (ih frames seen (v :: order) (by rw [pending]; omega)).done
    | (v, w :: ws) :: frames =>
      simp only [pending, List.map_cons, List.sum_cons, List.length_cons] at hfuel
      unfold finishing
      by_cases hw : seen.getD w true = true
      · rw [if_pos hw]
        refine (ih ((v, ws) :: frames) seen order ?_).ofSeen hw
        simp only [pending, List.map_cons, List.sum_cons]
        omega
      · rw [if_neg hw]
        have hsome : seen[w]? = some false := by
          rw [Array.getD_eq_getD_getElem?] at hw
          cases hs : seen[w]? with
          | none => simp [hs] at hw
          | some b => simpa [hs] using hw
        have hedges := openEdges_set g (!·) true hsome rfl rfl
        refine (ih ((w, g.next w) :: (v, ws) :: frames) (seen.setIfInBounds w true) order ?_).descend
        simp only [pending, List.map_cons, List.sum_cons]
        omega

/-- Every vertex to start from is finished. -/
theorem mem_finishingOrder {v : Nat} (hv : v ∈ starts) (hlt : v < g.size) :
    v ∈ g.finishingOrder starts := by
  have hfuel : pending [(g.size, starts)] + 2 * openEdges g (!·) (.replicate g.size false) <
      2 * (g.edgeCount + starts.length) + 2 := by
    have := openEdges_le g (!·) (.replicate g.size false)
    simp only [pending, List.map_cons, List.sum_cons, List.map_nil, List.sum_nil]
    omega
  have hfinishes := finishing_spec g [(g.size, starts)] (.replicate g.size false) [] hfuel
  have hmem := hfinishes.ends (g.size, starts) (by simp) v hv
    (by simp [Array.getD_eq_getD_getElem?, hlt])
  have hhead := hfinishes.last g.size rfl
  change v ∈ (finishing ..).tail
  generalize finishing _ _ _ _ _ = order at hmem hhead ⊢
  cases order with
  | nil => cases hmem
  | cons u order =>
    cases hhead
    exact (List.mem_cons.mp hmem).resolve_left (Nat.ne_of_lt hlt)

end Finishing

/-! ## Components -/

/-- The vertices reach each other through vertices of `P`. -/
def Linked (g : Graph) (P : Nat → Prop) (v w : Nat) : Prop := Joins g P v w ∧ Joins g P w v

namespace Linked

variable {P : Nat → Prop} {u v w : Nat}

theorem symm (h : Linked g P v w) : Linked g P w v := ⟨h.2, h.1⟩

theorem trans (h : Linked g P u v) (h' : Linked g P v w) : Linked g P u w :=
  ⟨h.1.trans h'.1, h'.2.trans h.2⟩

/-- Vertices that reach each other do so through vertices that they reach and that reach them. -/
theorem strengthen (h : Linked g P v w) : Linked g (Linked g P v) v w := by
  have hle : ∀ {a b}, Joins g P v a → Joins g P b v → Joins g P a b →
      Joins g (Linked g P v) a b := fun hva hbv hab =>
    hab.strengthen.mono fun c hc => ⟨hva.trans hc.1, hc.2.trans hbv⟩
  exact ⟨hle (.refl h.1.1) h.2 h.1, hle h.1 (.refl h.1.1) h.2⟩

end Linked

section Components

variable {marks : Array Mark} {v w : Nat}

theorem getD_foldl_modify (f : Mark → Mark) (ws : List Nat) (marks : Array Mark) (w : Nat)
    (hf : ∀ m, f (f m) = f m) :
    (ws.foldl (fun marks w => marks.modify w f) marks).size = marks.size ∧
      (ws.foldl (fun marks w => marks.modify w f) marks)[w]? =
        if w ∈ ws then marks[w]?.map f else marks[w]? := by
  induction ws generalizing marks with
  | nil => exact ⟨rfl, by simp⟩
  | cons u ws ih =>
    obtain ⟨hsize, hget⟩ := ih (marks.modify u f)
    rw [List.foldl_cons]
    refine ⟨hsize.trans (Array.size_modify ..), hget.trans ?_⟩
    rw [Array.getElem?_modify]
    by_cases hwu : u = w
    · subst hwu
      cases marks[u]? <;> simp [hf]
    · rw [if_neg hwu]
      simp [Ne.symm hwu]

theorem getElem?_foldl_set {α : Type} (m : α) (vs : List Nat) (ms : Array α) (w : Nat) :
    (vs.foldl (fun ms v => ms.setIfInBounds v m) ms).size = ms.size ∧
      (vs.foldl (fun ms v => ms.setIfInBounds v m) ms)[w]? =
        if w ∈ vs ∧ w < ms.size then some m else ms[w]? := by
  induction vs generalizing ms with
  | nil => exact ⟨rfl, by simp⟩
  | cons v vs ih =>
    obtain ⟨hsize, hget⟩ := ih (ms.setIfInBounds v m)
    rw [List.foldl_cons]
    refine ⟨hsize.trans (Array.size_setIfInBounds ..), hget.trans ?_⟩
    rw [Array.size_setIfInBounds, Array.getElem?_setIfInBounds]
    by_cases hvw : v = w
    · subst hvw
      by_cases hlt : v < ms.size
      · simp [hlt]
      · simp [hlt]
    · rw [if_neg hvw]
      simp [Ne.symm hvw]

/-- Candidates that are left over become open again. -/
theorem getD_foldl_reopen (vs : List Nat) (marks : Array Mark) (w : Nat) :
    (vs.foldl (fun marks w => marks.modify w fun m => if m = .candidate then .open else m)
        marks).getD w .closed =
      if w ∈ vs ∧ marks.getD w .closed = .candidate then .open else marks.getD w .closed := by
  obtain ⟨-, hget⟩ := getD_foldl_modify (fun m => if m = .candidate then .open else m) vs marks w
    fun m => by cases m <;> rfl
  rw [Array.getD_eq_getD_getElem?, hget, Array.getD_eq_getD_getElem?]
  by_cases hw : w ∈ vs
  · cases marks[w]? <;> simp [hw]
  · simp [hw]

/-- The component of an open vertex consists of the open vertices that it reaches and that reach it
through open vertices. -/
theorem componentOf_spec (hsize : marks.size = g.size)
    (hdecided : ∀ w, ¬Marked marks .candidate w) (v : Nat) :
    ∃ component marks', componentOf g g.transpose v marks = (component, marks') ∧
      component.Nodup ∧ (∀ w, w ∈ component ↔ Linked g (Marked marks .open) v w) ∧
      marks'.size = g.size ∧
      ∀ w, marks'.getD w .closed = if w ∈ component then .closed else marks.getD w .closed := by
  have hopen : ∀ w, Marked marks .open w → w < g.size := fun w hw => by
    rw [← hsize]
    exact (Array.getElem?_eq_some_iff.mp (getElem?_of_marked (by decide) hw)).1
  obtain ⟨back, marks1, heq1, -, hback, hsize1, hmarks1⟩ := reach_spec g.transpose marks
    (show Mark.open ≠ .closed by decide) (show _ ≠ Mark.candidate by decide) v
  simp only [joins_transpose hopen] at hback
  obtain ⟨component, marks2, heq2, -, hcomponent, hsize2, hmarks2⟩ := reach_spec g marks1
    (show Mark.candidate ≠ .closed by decide) (show _ ≠ Mark.closed by decide) v
  have hcandidate : ∀ w, Marked marks1 .candidate w ↔ w ∈ back := by
    intro w
    rw [Marked, hmarks1]
    by_cases hw : w ∈ back
    · simp [hw]
    · rw [if_neg hw]
      exact iff_of_false (hdecided w) hw
  have hlinked : ∀ w, w ∈ component ↔ Linked g (Marked marks .open) v w := by
    intro w
    rw [hcomponent]
    constructor
    · intro h
      have h := h.mono fun a ha => (hback a).mp ((hcandidate a).mp ha)
      exact ⟨h.mono fun a ha => ha.1, h.right⟩
    · intro h
      exact h.1.strengthen.mono fun a ha => (hcandidate a).mpr ((hback a).mpr (ha.2.trans h.2))
  have hsize3 := (getD_foldl_modify (fun m => if m = .candidate then .open else m) back marks2 v
    fun m => by cases m <;> rfl).1
  refine ⟨ascending component, back.foldl
    (fun marks w => marks.modify w fun m => if m = .candidate then .open else m) marks2,
    by rw [componentOf, heq1]; simp only [heq2],
    (ascending_pairwise _).imp Nat.ne_of_lt, fun w => mem_ascending.trans (hlinked w),
    hsize3.trans (hsize2.trans (hsize1.trans hsize)), fun w => ?_⟩
  rw [getD_foldl_reopen, hmarks2, hmarks1]
  simp only [mem_ascending]
  by_cases hc : w ∈ component
  · simp [hc]
  · by_cases hb : w ∈ back
    · simp [hc, hb, show marks.getD w .closed = .open from ((hback w).mp hb).1]
    · simp [hc, hb]

/-- Some components of the vertices `P` were found, and the vertices in them are closed. -/
structure Found (g : Graph) (P : Nat → Prop) (found : List (List Nat)) (marks : Array Mark) :
    Prop where
  size_eq : marks.size = g.size
  decided : ∀ w, ¬Marked marks .candidate w
  open_iff : ∀ w, Marked marks .open w ↔ P w ∧ w ∉ found.flatten
  component : ∀ c ∈ found, ∀ v ∈ c, ∀ w, w ∈ c ↔ Linked g P v w
  nodup : found.flatten.Nodup

theorem Found.add {P : Nat → Prop} {found : List (List Nat)} (h : Found g P found marks)
    (hv : Marked marks .open v) : ∃ component marks',
      componentOf g g.transpose v marks = (component, marks') ∧
        Found g P (component :: found) marks' ∧ v ∈ component := by
  obtain ⟨component, marks', heq, hnodup, hmem, hsize, hmarks⟩ :=
    componentOf_spec h.size_eq h.decided v
  obtain ⟨hPv, hfresh⟩ := (h.open_iff v).mp hv
  -- What is linked to an open vertex is open, because components are found as a whole.
  have hlinked : ∀ w, w ∈ component ↔ Linked g P v w := by
    intro w
    rw [hmem]
    have hopen : ∀ a, Linked g P v a → Marked marks .open a := by
      intro a ha
      refine (h.open_iff a).mpr ⟨ha.1.right, fun hin => hfresh ?_⟩
      obtain ⟨c, hc, hac⟩ := List.mem_flatten.mp hin
      exact List.mem_flatten.mpr ⟨c, hc, (h.component c hc a hac v).mpr ha.symm⟩
    exact ⟨fun hw => ⟨hw.1.mono fun a ha => ((h.open_iff a).mp ha).1,
      hw.2.mono fun a ha => ((h.open_iff a).mp ha).1⟩,
      fun hw => ⟨hw.strengthen.1.mono hopen, hw.strengthen.2.mono hopen⟩⟩
  have hclosed : ∀ w m, Marked marks' m w ↔ if w ∈ component then m = .closed else Marked marks m w := by
    intro w m
    rw [Marked, hmarks]
    split
    · exact eq_comm
    · rfl
  have hself : v ∈ component := (hlinked v).mpr ⟨.refl hPv, .refl hPv⟩
  refine ⟨component, marks', heq, ⟨hsize, fun w hw => ?_, fun w => ?_, fun c hc u hu w => ?_, ?_⟩, hself⟩
  · rw [hclosed] at hw
    split at hw
    · cases hw
    · exact h.decided w hw
  · rw [hclosed, List.flatten_cons, List.mem_append]
    split
    · rename_i hw
      simp [hw]
    · rename_i hw
      rw [h.open_iff]
      simp [hw]
  · rcases List.mem_cons.mp hc with rfl | hc
    · have huv := (hlinked u).mp hu
      exact (hlinked w).trans ⟨fun hw => huv.symm.trans hw, fun hw => huv.trans hw⟩
    · exact h.component c hc u hu w
  · refine List.nodup_append.mpr ⟨hnodup, h.nodup, fun a ha b hb => ?_⟩
    rintro rfl
    exact ((h.open_iff a).mp ((hmem a).mp ha).1.right).2 hb

theorem Found.addAll {P : Nat → Prop} {found : List (List Nat)} (h : Found g P found marks)
    (order : List Nat) : ∃ found' marks',
      order.foldl (addComponent g g.transpose) (found, marks) = (found', marks') ∧
        Found g P found' marks' ∧ (∀ v ∈ found.flatten, v ∈ found'.flatten) ∧
        ∀ v ∈ order, P v → v ∈ found'.flatten := by
  induction order generalizing found marks with
  | nil => exact ⟨found, marks, rfl, h, fun _ hv => hv, nofun⟩
  | cons u order ih =>
    rw [List.foldl_cons]
    by_cases hu : marks.getD u .closed = .open
    · obtain ⟨component, marks1, heq1, hadd, hself⟩ := h.add hu
      rw [show addComponent g g.transpose (found, marks) u = (component :: found, marks1) by
        rw [addComponent, if_pos hu, heq1]]
      obtain ⟨found', marks', heq, h', hkept, hall⟩ := ih hadd
      refine ⟨found', marks', heq, h', fun v hv => hkept v ?_, fun v hv hPv => ?_⟩
      · exact List.mem_append_right _ hv
      · rcases List.mem_cons.mp hv with rfl | hv
        · exact hkept v (List.mem_append_left _ hself)
        · exact hall v hv hPv
    · rw [show addComponent g g.transpose (found, marks) u = (found, marks) from if_neg hu]
      obtain ⟨found', marks', heq, h', hkept, hall⟩ := ih h
      refine ⟨found', marks', heq, h', hkept, fun v hv hPv => ?_⟩
      rcases List.mem_cons.mp hv with rfl | hv
      · refine hkept v (Classical.byContradiction fun hnot => hu ?_)
        exact (h.open_iff v).mpr ⟨hPv, hnot⟩
      · exact hall v hv hPv

/-- In the beginning all vertices that are asked for are open. -/
theorem found_nil (g : Graph) (vs : List Nat) : Found g (fun u => u ∈ vs ∧ u < g.size) []
    (vs.foldl (fun ms v => ms.setIfInBounds v Mark.open) (.replicate g.size .closed)) := by
  have hmark : ∀ w, (vs.foldl (fun (ms : Array Mark) v => ms.setIfInBounds v .open)
      (Array.replicate g.size Mark.closed)).getD w .closed =
        if w ∈ vs ∧ w < g.size then Mark.open else .closed := by
    intro w
    rw [Array.getD_eq_getD_getElem?, (getElem?_foldl_set ..).2, Array.size_replicate]
    split
    · rfl
    · rw [Array.getElem?_replicate]
      split <;> rfl
  refine ⟨(getElem?_foldl_set Mark.open vs _ 0).1.trans Array.size_replicate, fun w hw => ?_,
    fun w => ?_, nofun, .nil⟩
  · rw [Marked, hmark] at hw
    split at hw <;> cases hw
  · rw [Marked, hmark]
    simp

/-- The components are the classes of the vertices that reach each other, without repetition. -/
theorem components_spec (g : Graph) (vs : List Nat) :
    (g.components vs).flatten.Nodup ∧
      (∀ v, v ∈ (g.components vs).flatten ↔ v ∈ vs ∧ v < g.size) ∧
      ∀ c ∈ g.components vs, ∀ v ∈ c, ∀ w,
        w ∈ c ↔ Linked g (fun u => u ∈ vs ∧ u < g.size) v w := by
  obtain ⟨found', marks', heq, h, -, hall⟩ := (found_nil g vs).addAll (g.finishingOrder vs)
  have hcomponents : g.components vs = found' := congrArg Prod.fst heq
  rw [hcomponents]
  refine ⟨h.nodup, fun v => ⟨fun hv => ?_, fun hv => ?_⟩, h.component⟩
  · obtain ⟨c, hc, hvc⟩ := List.mem_flatten.mp hv
    exact ((h.component c hc v hvc v).mp hvc).1.1
  · exact hall v (mem_finishingOrder hv.1 hv.2) hv

end Components

end PatternAutomata.Graph
