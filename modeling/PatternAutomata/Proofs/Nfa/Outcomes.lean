import PatternAutomata.Proofs.Nfa.Runs
import PatternAutomata.Proofs.Nfa.Steps
import PatternAutomata.Proofs.Pattern.Numbering

/-!
# What transitions are made of

A route does to the captures what its path does, and its guard is put together from those of the
assertions that it passes. A transition combines routes. So what holds of every route, and is kept
when routes are combined, holds of every transition (`transitions_induction`).
-/

namespace PatternAutomata

/-! ## Groups that boundaries touch -/

namespace Boundaries

/-- The entries of a capture array that are set or reset. -/
def touched (b : Boundaries) : List Nat :=
  (b.startUpdated.toList ++ b.startCleared.toList).map (2 * ·) ++
    (b.endUpdated.toList ++ b.endCleared.toList).map (2 * · + 1)

/-- Only groups below `count` are touched. -/
structure Below (count : Nat) (b : Boundaries) : Prop where
  startUpdated : ∀ g ∈ b.startUpdated, g < count
  endUpdated : ∀ g ∈ b.endUpdated, g < count
  startCleared : ∀ g ∈ b.startCleared, g < count
  endCleared : ∀ g ∈ b.endCleared, g < count

namespace Below

variable {count g : Nat} {a b : Boundaries}

theorem touched (h : b.Below count) : ∀ i ∈ b.touched, i < 2 * count := by
  intro i hi
  simp only [Boundaries.touched, List.mem_append, List.mem_map, BitSet.mem_toList] at hi
  rcases hi with ⟨g, hg | hg, rfl⟩ | ⟨g, hg | hg, rfl⟩
  · have := h.startUpdated g hg
    omega
  · have := h.startCleared g hg
    omega
  · have := h.endUpdated g hg
    omega
  · have := h.endCleared g hg
    omega

theorem empty : Boundaries.empty.Below count := by
  constructor <;> intro g hg <;> exact absurd hg (by simp [BitSet.mem_def, Boundaries.empty,
    show ∀ g, (∅ : BitSet).contains g = false from BitSet.contains_empty])

theorem updateStart (h : b.Below count) (hg : g < count) : (b.updateStart g).Below count where
  startUpdated g' hg' := by
    rcases BitSet.contains_insert_iff.mp hg' with hg' | rfl
    · exact h.startUpdated g' hg'
    · exact hg
  endUpdated := h.endUpdated
  startCleared g' hg' := by
    simp only [BitSet.mem_def, Boundaries.updateStart, BitSet.contains_erase, Bool.and_eq_true] at hg'
    exact h.startCleared g' hg'.1
  endCleared := h.endCleared

theorem updateEnd (h : b.Below count) (hg : g < count) : (b.updateEnd g).Below count where
  startUpdated := h.startUpdated
  endUpdated g' hg' := by
    rcases BitSet.contains_insert_iff.mp hg' with hg' | rfl
    · exact h.endUpdated g' hg'
    · exact hg
  startCleared := h.startCleared
  endCleared g' hg' := by
    simp only [BitSet.mem_def, Boundaries.updateEnd, BitSet.contains_erase, Bool.and_eq_true] at hg'
    exact h.endCleared g' hg'.1

theorem clear (h : b.Below count) {lo hi : Nat} (hhi : hi ≤ count) :
    (b.clear lo hi).Below count := by
  constructor <;> intro g hg
  all_goals simp only [BitSet.mem_def, Boundaries.clear, BitSet.contains_sdiff,
    BitSet.contains_union, BitSet.contains_ofRange, Bool.and_eq_true, Bool.or_eq_true,
    decide_eq_true_eq] at hg
  · exact h.startUpdated g hg.1
  · exact h.endUpdated g hg.1
  · exact hg.elim (h.startCleared g) fun hg => Nat.lt_of_lt_of_le hg.2 hhi
  · exact hg.elim (h.endCleared g) fun hg => Nat.lt_of_lt_of_le hg.2 hhi

theorem merge (ha : a.Below count) (hb : b.Below count) : (a.merge b).Below count := by
  constructor <;> intro g hg
  all_goals simp only [BitSet.mem_def, Boundaries.merge, BitSet.contains_sdiff,
    BitSet.contains_union, Bool.and_eq_true, Bool.or_eq_true] at hg
  · exact hg.elim (fun hg => ha.startUpdated g hg.1) (hb.startUpdated g)
  · exact hg.elim (fun hg => ha.endUpdated g hg.1) (hb.endUpdated g)
  · exact hg.elim (fun hg => ha.startCleared g hg.1) (hb.startCleared g)
  · exact hg.elim (fun hg => ha.endCleared g hg.1) (hb.endCleared g)

end Below

end Boundaries

/-! ## Guards -/

namespace Tree

/-- Whether some assertion asks if a word character follows. -/
def asksForWords (t : Tree) : Bool :=
  t.usesAssertion .wordBoundary || t.usesAssertion .notWordBoundary

theorem usesAssertion_of_kind {t : Tree} {id : NodeId} {a : Assertion}
    (h : t.kind id = .assertion a) : t.usesAssertion a = true := by
  rw [kind, Array.getD_eq_getD_getElem?] at h
  cases hget : t.kinds[id]? with
  | none => simp [hget] at h
  | some k =>
    rw [hget, Option.getD_some] at h
    exact Array.contains_iff_mem.mpr (h ▸ Array.mem_of_getElem? hget)

end Tree

/-- The guard asks for a word character, or for none, only where the tree does. -/
def Guard.FitsIn (t : Tree) (g : Guard) : Prop :=
  (g.nextWord || g.nextNotWord) = true → t.asksForWords = true

theorem Guard.FitsIn.union {t : Tree} {g h : Guard} (hg : g.FitsIn t) (hh : h.FitsIn t) :
    (g.union h).FitsIn t := by
  intro hw
  simp only [Guard.union, Bool.or_eq_true] at hw
  refine hw.elim (fun hw => hw.elim (fun hw => hg ?_) fun hw => hh ?_)
    fun hw => hw.elim (fun hw => hg ?_) fun hw => hh ?_
  all_goals simp [hw]

theorem Guard.fitsIn_of_plain {t : Tree} {g : Guard} (h : (g.nextWord || g.nextNotWord) = false) :
    g.FitsIn t := fun hw => by rw [h] at hw; cases hw

namespace Nfa

variable {n : Nfa} {context : Context}

/-! ## Routes -/

/-- The route does to the captures what a path does, under a guard of the tree. -/
structure Route.FitsIn (n : Nfa) (r : Route) : Prop where
  guard : r.guard.FitsIn n.tree
  boundaries : ∃ path, r.boundaries = Walk.boundaries n.tree path

theorem Route.fitsIn_done : ({ goal := .done } : Route).FitsIn n :=
  ⟨Guard.fitsIn_of_plain rfl, [], rfl⟩

namespace Walk

structure FitsIn (n : Nfa) (w : Walk) : Prop where
  guard : w.guard.FitsIn n.tree
  pending : ∀ g, .setGuard g ∈ w.tasks → g.FitsIn n.tree
  routes : ∀ r ∈ w.routes, r.FitsIn n

variable {w w' : Walk} {id : NodeId}

theorem FitsIn.andThen (h : w.FitsIn n) {tasks : List Task}
    (htasks : ∀ g, .setGuard g ∈ tasks → g.FitsIn n.tree) : (w.andThen tasks).FitsIn n where
  guard := h.guard
  pending g hg := (List.mem_append.mp hg).elim (htasks g) (h.pending g)
  routes := h.routes

theorem FitsIn.emit (h : w.FitsIn n) (goal : Goal) : (w.emit n goal).FitsIn n := by
  unfold Walk.emit
  simp only
  split
  · exact h
  · refine ⟨h.guard, h.pending, fun r hr => ?_⟩
    rcases List.mem_cons.mp hr with rfl | hr
    · exact ⟨h.guard, w.path, rfl⟩
    · exact h.routes r hr

theorem FitsIn.finishAlternative (h : w.FitsIn n) (group : NodeId) :
    (w.finishAlternative n group).FitsIn n := by
  unfold Walk.finishAlternative
  refine h.andThen fun g hg => ?_
  split at hg <;> simp at hg

theorem FitsIn.leave (h : w.FitsIn n) (id : NodeId) : (w.leave n id).FitsIn n := by
  unfold Walk.leave
  split
  · exact h.andThen (by simp)
  · split
    · split
      · exact h
      · simp only
        split
        · exact h
        · split
          · exact h.andThen (by simp)
          · exact h.finishAlternative _
    · exact h.andThen (by simp)
    · exact h

theorem FitsIn.guarded (h : w.FitsIn n) {g : Guard} (hg : g.FitsIn n.tree) :
    (w.guarded id g).FitsIn n := by
  have hunion : Walk.FitsIn n { w with guard := w.guard.union g } :=
    ⟨h.guard.union hg, h.pending, h.routes⟩
  refine hunion.andThen fun g' hg' => ?_
  simp only [List.mem_cons, Task.setGuard.injEq, reduceCtorEq, List.not_mem_nil, or_false,
    false_or] at hg'
  exact hg' ▸ h.guard

theorem FitsIn.enterAssertion (h : w.FitsIn n) {a : Assertion}
    (ha : n.tree.kind id = .assertion a) : (w.enterAssertion n context id a).FitsIn n := by
  have huses := Tree.usesAssertion_of_kind ha
  cases a with
  | atStart =>
    unfold Walk.enterAssertion
    simp only
    split
    · exact h.andThen (by simp)
    · exact h
  | atEnd => exact h.guarded (Guard.fitsIn_of_plain (by split <;> rfl))
  | wordBoundary => exact h.guarded fun _ => by simp [Tree.asksForWords, huses]
  | notWordBoundary => exact h.guarded fun _ => by simp [Tree.asksForWords, huses]

theorem FitsIn.enter (h : w.FitsIn n) (id : NodeId) : (w.enter n context id).FitsIn n := by
  unfold Walk.enter
  split
  · exact h.emit _
  · exact h.emit _
  · rename_i a ha
    exact h.enterAssertion ha
  · rename_i l hl
    unfold Walk.enterLook
    split
    · have hspawned : Walk.FitsIn n { w with spawned := id :: w.spawned } :=
        ⟨h.guard, h.pending, h.routes⟩
      exact hspawned.andThen (by simp)
    · split
      · exact h
      · exact h.andThen (by simp)
  · refine h.andThen fun g hg => ?_
    obtain ⟨alternative, -, hg⟩ := List.mem_flatMap.mp hg
    unfold enterAlternative at hg
    split at hg
    · simp at hg
    · split at hg <;> simp at hg
  · exact h
  · exact h

theorem FitsIn.step (h : w.FitsIn n) (hstep : Step n context w w') : w'.FitsIn n := by
  obtain ⟨htasks, hw⟩ := hstep
  rename_i task tasks
  have hpending := h.pending
  rw [htasks] at hpending
  have hrest : Walk.FitsIn n { w with tasks } :=
    ⟨h.guard, fun g hg => hpending g (List.mem_cons_of_mem _ hg), h.routes⟩
  cases task with
  | enter id =>
    simp only [Walk.step] at hw
    split at hw
    · cases hw
      have hworked : Walk.FitsIn n { w with tasks, work := w.work + 1 } :=
        ⟨hrest.guard, hrest.pending, hrest.routes⟩
      exact hworked.enter id
    · cases hw
  | leave id =>
    cases hw
    exact hrest.leave id
  | finishAlternative group =>
    cases hw
    exact hrest.finishAlternative group
  | setGuard g =>
    cases hw
    exact ⟨hpending g (.head _), hrest.pending, hrest.routes⟩
  | _ =>
    cases hw
    exact ⟨hrest.guard, hrest.pending, hrest.routes⟩

theorem FitsIn.run {fuel : Nat} (h : w.FitsIn n) (hw : Walk.run n context fuel w = .ok w') :
    w'.FitsIn n :=
  steps_induction (fun h hstep => h.step hstep) h (steps_of_run hw)

end Walk

theorem fitsIn_of_routes {task : Task} {work : Nat} {found : List Route × Nat}
    (htask : ∀ g, task ≠ .setGuard g) (h : n.routes context task work = .ok found) :
    ∀ r ∈ found.1, r.FitsIn n := by
  obtain ⟨w, hw, h⟩ := bind_eq_ok.mp h
  cases h
  have hstart : Walk.FitsIn n { tasks := [task], work } :=
    ⟨Guard.fitsIn_of_plain rfl, fun g hg => absurd (List.mem_singleton.mp hg).symm (htask g), by simp⟩
  exact fun r hr => (hstart.run hw).routes r (List.mem_reverse.mp hr)

theorem fitsIn_of_mainRoutes {s : State} {found : List Route × Nat}
    (h : n.mainRoutes s = .ok found) : ∀ r ∈ found.1, r.FitsIn n := by
  unfold mainRoutes at h
  split at h
  · cases h
    intro r hr
    rw [List.mem_singleton.mp hr]
    exact Route.fitsIn_done
  · exact fitsIn_of_routes (by simp) h
  · exact fitsIn_of_routes (by simp) h

theorem runTask_ne_setGuard (id : NodeId) (g : Guard) : n.runTask id ≠ .setGuard g := by
  unfold runTask
  split <;> simp

theorem leads_fitsIn : Leads n context (fun task => ∀ g, task ≠ .setGuard g) (Route.FitsIn n) where
  routes _ htask _ _ h := fitsIn_of_routes htask h
  spawned _ _ id _ := runTask_ne_setGuard id

/-! ## The captures of transitions -/

section Captures

variable {ends : Nat → Nat}

/-- A path touches captures of the pattern only. -/
theorem below_boundaries {t : Tree} (ht : ∀ id, (t.kind id).Numbered ends t.groupCount [])
    (path : List PathElement) : (Walk.boundaries t path).Below t.groupCount := by
  induction path with
  | nil => exact .empty
  | cons e path ih =>
    show (Walk.stepBoundaries t e (Walk.boundaries t path)).Below t.groupCount
    generalize Walk.boundaries t path = b at ih
    have hgroup : ∀ id g, t.group? id = some g → g.innerEnd ≤ t.groupCount ∧
        ∀ m, g.number? = some m → m < t.groupCount := by
      intro id g hg
      have hkind : t.kind id = .group g := by
        unfold Tree.group? at hg
        split at hg
        · rename_i g' hg'
          rw [hg', Option.some.inj hg]
        · cases hg
      exact ⟨(ht id g hkind).1, fun m hm => ((ht id g hkind).2 m hm).1⟩
    cases e with
    | pass id => exact ih
    | enter id =>
      unfold Walk.stepBoundaries
      simp only
      cases hg : t.group? id with
      | none => exact ih
      | some g =>
        obtain ⟨hend, hnumber⟩ := hgroup id g hg
        have hb : (if g.isQuantifier then b.clear g.innerStart g.innerEnd else b).Below
            t.groupCount := by
          split
          · exact ih.clear hend
          · exact ih
        simp only
        cases hm : g.number? with
        | none => exact hb
        | some m => exact hb.updateStart (hnumber m hm)
    | exit id =>
      unfold Walk.stepBoundaries
      simp only
      cases hm : (t.group? id).bind Group.number? with
      | none => exact ih
      | some m =>
        obtain ⟨g, hg, hm⟩ := Option.bind_eq_some_iff.mp hm
        exact ih.updateEnd ((hgroup id g hg).2 m hm)

theorem Combination.below_addRoute (ht : ∀ id, (n.tree.kind id).Numbered ends n.groupCount [])
    {c : Combination} {r : Route} (hc : c.boundaries.Below n.groupCount) (hr : r.FitsIn n) :
    (c.addRoute n r).boundaries.Below n.groupCount := by
  obtain ⟨path, hpath⟩ := hr.boundaries
  exact hc.merge (hpath ▸ below_boundaries ht path)

/-- A transition touches captures of the pattern only. -/
theorem below_of_mem_transitions (ht : ∀ id, (n.tree.kind id).Numbered ends n.groupCount [])
    {s : State} {ts : List Transition} (h : n.transitions s = .ok ts) {t : Transition}
    (hmem : t ∈ ts) : t.boundaries.Below n.groupCount := by
  refine transitions_induction leads_fitsIn (fun _ => fitsIn_of_mainRoutes) (by simp)
    (P := fun c => c.boundaries.Below n.groupCount)
    (Q := fun t => t.boundaries.Below n.groupCount)
    (fun r hr => Combination.below_addRoute ht .empty hr) (fun c r c' hc hr hc' => ?_)
    (fun c hc => ?_) h t hmem
  · have hsum := Combination.below_addRoute ht hc hr
    unfold Combination.addLookAhead? at hc'
    simp only at hc'
    split at hc'
    · cases hc'
    · split at hc'
      · cases hc'
        exact hsum
      · cases hc'
        exact hsum
  · unfold Combination.transition
    simp only
    split
    · exact hc
    · exact hc

end Captures

end Nfa

end PatternAutomata
