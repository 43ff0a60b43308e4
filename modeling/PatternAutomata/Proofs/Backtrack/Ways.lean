import Mathlib.Data.List.Basic
import Mathlib.Data.List.Forall2
import PatternAutomata.Proofs.Backtrack.Basic
import PatternAutomata.Proofs.Tree.Shape

/-!
# The ways of each kind of node

The bounds on levels and iterations with which ways are listed never matter in a well-formed tree:
children have smaller numbers, and each iteration that goes on takes a character. So the ways of a
node follow from those of the nodes below it, and those of a loop from its own at later positions.
-/

namespace PatternAutomata.Tree

variable {σ : Type} {t : Tree} {x : Subject} {r : Recorder σ} {id : NodeId} {g : Group}
  {next next' : NodeId → Spot σ → List (Spot σ)} {s s' : Spot σ}

theorem canSkip_of_isLoop (h : t.WellFormed) (hg : t.kind id = .group g)
    (hloop : g.isLoop = true) : t.canSkip g = true := by
  have hiterates := (h.shaped_of_kind hg).2.1 (Group.isQuantifier_of_isLoop hloop)
  obtain ⟨a, ha, hempty⟩ := hiterates.exists_empty hloop
  rw [canSkip, Group.isQuantifier_of_isLoop hloop, Bool.true_and]
  exact List.any_eq_true.mpr ⟨a, ha, by simp [terms, hempty]⟩

/-! ## Only the ways of the nodes below matter -/

theorem inTurn_congr {ids : List NodeId} (h : ∀ id ∈ ids, ∀ s, next id s = next' id s)
    (s : Spot σ) : inTurn next ids s = inTurn next' ids s := by
  induction ids generalizing s with
  | nil => rfl
  | cons id ids ih =>
    simp only [inTurn]
    rw [h id (by simp)]
    exact List.flatMap_congr fun s' _ => ih (fun c hc => h c (by simp [hc])) s'

theorem iteration_congr {first : NodeId} {others : List NodeId}
    (h : ∀ id ∈ first :: others, ∀ s, next id s = next' id s) (s : Spot σ) :
    iteration t r g next first others s = iteration t r g next' first others s := by
  unfold iteration
  rw [h first (by simp)]
  refine List.flatMap_congr fun s' _ => ?_
  rw [inTurn_congr fun id hid => h id (by simp [hid])]

theorem groupWays_congr (h : ∀ a ∈ g.alternatives, ∀ id ∈ t.terms a, ∀ s, next id s = next' id s)
    (count : Nat) (s : Spot σ) : groupWays t r g next count s = groupWays t r g next' count s := by
  induction count generalizing s with
  | zero => rfl
  | succ count ih =>
    unfold groupWays
    refine List.flatMap_congr fun a ha => ?_
    have hnext := h a ha
    cases hterms : t.terms a with
    | nil => rfl
    | cons first others =>
      rw [hterms] at hnext
      simp only [iteration_congr hnext]
      split
      · exact List.flatMap_congr fun s' _ => ih s'
      · rfl

theorem lookWays_congr {l : LookAround} (h : ∀ s, next l.body s = next' l.body s) (s : Spot σ) :
    lookWays t x r id l next s = lookWays t x r id l next' s := by
  unfold lookWays
  rw [h]

/-- A term of an alternative of a group has a smaller number than the group. -/
theorem WellFormed.term_lt (h : t.WellFormed) {a c : NodeId} (hg : t.kind id = .group g)
    (ha : a ∈ g.alternatives) (hc : c ∈ t.terms a) : c < id :=
  Nat.lt_trans (h.child_lt a c (mem_children_of_mem_terms hc))
    (h.child_lt id a (mem_children_of_alternative hg ha))

/-- Any number of levels that exceeds the number of the node will do. -/
theorem waysWithin_eq (h : t.WellFormed) {depth depth' : Nat} (hd : id < depth) (hd' : id < depth')
    (s : Spot σ) : waysWithin t x r depth id s = waysWithin t x r depth' id s := by
  induction id using Nat.strongRecOn generalizing depth depth' s with
  | ind id ih =>
    obtain ⟨depth, rfl⟩ := Nat.exists_eq_add_one_of_ne_zero (Nat.ne_zero_of_lt hd)
    obtain ⟨depth', rfl⟩ := Nat.exists_eq_add_one_of_ne_zero (Nat.ne_zero_of_lt hd')
    have hchild : ∀ c, c < id → ∀ s, waysWithin t x r depth c s = waysWithin t x r depth' c s :=
      fun c hc s => ih c hc (Nat.lt_of_lt_of_le hc (Nat.le_of_lt_succ hd))
        (Nat.lt_of_lt_of_le hc (Nat.le_of_lt_succ hd')) s
    unfold waysWithin
    cases hk : t.kind id with
    | group g => exact groupWays_congr (fun a ha c hc => hchild c (h.term_lt hk ha hc)) ..
    | look l =>
      exact lookWays_congr (hchild _ (h.body_lt hk)) s
    | _ => rfl

section Ways

variable (h : t.WellFormed)
include h

theorem ways_eq_waysWithin (s : Spot σ) : t.ways x r id s = waysWithin t x r (id + 1) id s := by
  by_cases hid : id < t.size
  · exact waysWithin_eq h hid (Nat.lt_succ_self _) s
  · have hk : t.kind id = .matchFound := by
      rw [kind, Array.getD_eq_getD_getElem?, Array.getElem?_eq_none_iff.mpr (Nat.le_of_not_lt hid)]
      rfl
    unfold ways
    cases t.size with
    | zero => rw [waysWithin_zero, waysWithin, hk]
    | succ n => rw [waysWithin, waysWithin, hk]

theorem waysWithin_of_lt {c : NodeId} (hc : c < id) (s : Spot σ) :
    waysWithin t x r id c s = t.ways x r c s :=
  (waysWithin_eq h hc (Nat.lt_succ_self c) s).trans (ways_eq_waysWithin h s).symm

theorem ways_charClass {set : CodePointSet} (hk : t.kind id = .charClass set) :
    t.ways x r id s = if (x.after? s.position).any fun c => set.contains c.toNat then
      [{ s with position := s.position + 1 }] else [] := by
  rw [ways_eq_waysWithin h, waysWithin, hk]

theorem ways_assertion {a : Assertion} (hk : t.kind id = .assertion a) :
    t.ways x r id s = if x.holds a s.position then [s] else [] := by
  rw [ways_eq_waysWithin h, waysWithin, hk]

theorem ways_look {l : LookAround} (hk : t.kind id = .look l) :
    t.ways x r id s = lookWays t x r id l (t.ways x r) s := by
  rw [ways_eq_waysWithin h, waysWithin, hk]
  exact lookWays_congr (fun s => waysWithin_of_lt h (h.body_lt hk) s) s

theorem ways_backReference {n : Nat} (hk : t.kind id = .backReference n) :
    t.ways x r id s = [] := by
  rw [ways_eq_waysWithin h, waysWithin, hk]

theorem ways_sequence {terms : List NodeId} (hk : t.kind id = .sequence terms) :
    t.ways x r id s = [] := by
  rw [ways_eq_waysWithin h, waysWithin, hk]

theorem ways_matchFound (hk : t.kind id = .matchFound) : t.ways x r id s = [] := by
  rw [ways_eq_waysWithin h, waysWithin, hk]

theorem ways_groupWays (hk : t.kind id = .group g) :
    t.ways x r id s = groupWays t r g (t.ways x r) (x.text.length - s.position + 1) s := by
  rw [ways_eq_waysWithin h, waysWithin, hk]
  exact groupWays_congr (fun a ha c hc => waysWithin_of_lt h (h.term_lt hk ha hc)) ..

end Ways

/-! ## Positions -/

/-- A spot that is reached from another one: not before it, and not beyond the text unless the other
one is. -/
structure Ahead (x : Subject) (s s' : Spot σ) : Prop where
  le : s.position ≤ s'.position
  bounded : s'.position ≤ max s.position x.text.length

namespace Ahead

theorem of_eq (h : s'.position = s.position) : Ahead x s s' :=
  ⟨Nat.le_of_eq h.symm, by rw [h]; exact Nat.le_max_left ..⟩

theorem trans {s'' : Spot σ} (h : Ahead x s s') (h' : Ahead x s' s'') : Ahead x s s'' := by
  obtain ⟨h1, h2⟩ := h
  obtain ⟨h3, h4⟩ := h'
  exact ⟨by omega, by omega⟩

theorem remaining_lt (h : Ahead x s s') (hlt : s.position < s'.position) :
    x.text.length - s'.position < x.text.length - s.position := by
  have := h.bounded
  omega

end Ahead

@[simp] theorem position_enter : (g.enter r s).position = s.position := by
  unfold Group.enter
  simp only
  split <;> split <;> rfl

@[simp] theorem position_exit : (g.exit r s).position = s.position := by
  unfold Group.exit
  split <;> rfl

theorem ahead_inTurn {ids : List NodeId} (h : ∀ id ∈ ids, ∀ s, ∀ s' ∈ next id s, Ahead x s s')
    (hs : s' ∈ inTurn next ids s) : Ahead x s s' := by
  induction ids generalizing s with
  | nil =>
    obtain rfl := List.mem_singleton.mp hs
    exact .of_eq rfl
  | cons id ids ih =>
    obtain ⟨s1, h1, h2⟩ := List.mem_flatMap.mp hs
    exact (h id (by simp) s s1 h1).trans (ih (fun c hc => h c (by simp [hc])) h2)

theorem ahead_iteration {first : NodeId} {others : List NodeId}
    (h : ∀ id ∈ first :: others, ∀ s, ∀ s' ∈ next id s, Ahead x s s')
    (hs : s' ∈ iteration t r g next first others s) :
    Ahead x s s' ∧ (t.canSkip g = true → s.position < s'.position) := by
  obtain ⟨s1, hbegun, hends⟩ := List.mem_flatMap.mp hs
  obtain ⟨h1, hempty⟩ := List.mem_filter.mp hbegun
  obtain ⟨s2, h2, rfl⟩ := List.mem_map.mp hends
  have h3 := h first (by simp) _ _ h1
  have h4 := ahead_inTurn (fun c hc => h c (List.mem_cons_of_mem _ hc)) h2
  have hfirst : Ahead x s s1 := Ahead.trans (.of_eq position_enter) h3
  have hrest : Ahead x s1 (g.exit r s2) := h4.trans (.of_eq position_exit)
  refine ⟨hfirst.trans hrest, fun hskip => ?_⟩
  rw [hskip, Bool.true_and, Bool.not_eq_true', beq_eq_false_iff_ne] at hempty
  exact Nat.lt_of_lt_of_le (Nat.lt_of_le_of_ne hfirst.le (Ne.symm hempty)) hrest.le

theorem ahead_groupWays
    (h : ∀ a ∈ g.alternatives, ∀ id ∈ t.terms a, ∀ s, ∀ s' ∈ next id s, Ahead x s s')
    (count : Nat) (hs : s' ∈ groupWays t r g next count s) : Ahead x s s' := by
  induction count generalizing s with
  | zero => cases hs
  | succ count ih =>
    obtain ⟨a, ha, hs⟩ := List.mem_flatMap.mp hs
    have hnext := h a ha
    split at hs
    · split at hs <;> obtain rfl := List.mem_singleton.mp hs
      · exact .of_eq rfl
      · exact .of_eq (by simp)
    · rename_i first others hterms
      rw [hterms] at hnext
      simp only at hs
      split at hs
      · obtain ⟨s1, h1, h2⟩ := List.mem_flatMap.mp hs
        exact (ahead_iteration hnext h1).1.trans (ih h2)
      · exact (ahead_iteration hnext hs).1

theorem ahead_lookWays {l : LookAround} (hs : s' ∈ lookWays t x r id l next s) : Ahead x s s' := by
  unfold lookWays at hs
  refine .of_eq ?_
  split at hs
  · split at hs <;> split at hs <;> first | cases hs; done | obtain rfl := List.mem_singleton.mp hs
    all_goals rfl
  · split at hs
    · split at hs
      · cases hs
      · obtain rfl := List.mem_singleton.mp hs
        rfl
    · cases hs

theorem ahead_waysWithin (depth : Nat) (hs : s' ∈ waysWithin t x r depth id s) : Ahead x s s' := by
  induction depth generalizing id s s' with
  | zero => cases hs
  | succ depth ih =>
    unfold waysWithin at hs
    split at hs
    · split at hs
      · rename_i hsome
        obtain rfl := List.mem_singleton.mp hs
        have hlt : s.position < x.text.length := by
          cases hc : x.after? s.position with
          | none => rw [hc] at hsome; cases hsome
          | some c => exact (List.getElem?_eq_some_iff.mp hc).1
        exact ⟨Nat.le_succ _, Nat.le_trans hlt (Nat.le_max_right ..)⟩
      · cases hs
    · split at hs
      · obtain rfl := List.mem_singleton.mp hs
        exact .of_eq rfl
      · cases hs
    · exact ahead_lookWays hs
    · exact ahead_groupWays (fun a _ c _ s s' hs => ih hs) _ hs
    all_goals cases hs

theorem ahead_ways (hs : s' ∈ t.ways x r id s) : Ahead x s s' := ahead_waysWithin _ hs

/-! ## Groups -/

/-- Any number of iterations that exceeds the number of characters left will do. -/
theorem groupWays_eq (hskip : g.isLoop = true → t.canSkip g = true) {count count' : Nat}
    (hcount : x.text.length - s.position < count) (hcount' : x.text.length - s.position < count') :
    groupWays t r g (t.ways x r) count s = groupWays t r g (t.ways x r) count' s := by
  induction count generalizing count' s with
  | zero => omega
  | succ count ih =>
    obtain ⟨count', rfl⟩ := Nat.exists_eq_add_one_of_ne_zero (Nat.ne_zero_of_lt hcount')
    unfold groupWays
    refine List.flatMap_congr fun a _ => ?_
    split
    · rfl
    · simp only
      split
      · rename_i hloop
        refine List.flatMap_congr fun s' hs' => ?_
        obtain ⟨hahead, hlt⟩ := ahead_iteration (fun _ _ _ _ => ahead_ways) hs'
        have := hahead.remaining_lt (hlt (hskip hloop))
        exact ih (by omega) (by omega)
      · rfl

/-- Goes on after an iteration: with the next one, if the group loops. -/
def again (t : Tree) (x : Subject) (r : Recorder σ) (id : NodeId) (g : Group) (s : Spot σ) :
    List (Spot σ) :=
  if g.isLoop then t.ways x r id s else [s]

theorem ways_group (h : t.WellFormed) (hk : t.kind id = .group g) :
    t.ways x r id s = g.alternatives.flatMap fun a =>
      match t.terms a with
      | [] => if g.isQuantifier then [s] else [g.exit r (g.enter r s)]
      | first :: others =>
        (iteration t r g (t.ways x r) first others s).flatMap (t.again x r id g) := by
  have hskip := canSkip_of_isLoop h hk
  rw [ways_groupWays h hk, groupWays]
  refine List.flatMap_congr fun a _ => ?_
  cases t.terms a with
  | nil => rfl
  | cons first others =>
    simp only
    unfold again
    split
    · rename_i hloop
      refine List.flatMap_congr fun s' hs' => ?_
      obtain ⟨hahead, hlt⟩ := ahead_iteration (fun _ _ _ _ => ahead_ways) hs'
      have := hahead.remaining_lt (hlt (hskip hloop))
      rw [ways_groupWays h hk]
      exact groupWays_eq hskip (by omega) (by omega)
    · simp

end PatternAutomata.Tree
