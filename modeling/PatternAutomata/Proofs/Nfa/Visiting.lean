import PatternAutomata.Proofs.Nfa.Combining
import PatternAutomata.Proofs.Nfa.Outcomes

/-!
# The nodes that walks enter

A walk goes from node to node by the places in the tree: down to the first term of an alternative,
on to the next term, up to the group around it. What keeps it within the pattern is that all tasks
that are pending are about nodes at which a match can stand, or enter a node that ends a match.
Every step keeps this, so every walk does, and the states that its routes lead to are about such
nodes again.
-/

namespace PatternAutomata

namespace Tree

/-- The node ends the match of the pattern, or of the body of a look-around in it. -/
def Ends (t : Tree) (id : NodeId) : Prop :=
  id = t.matchFound ∨ ∃ look l, t.InPattern look ∧ t.kind look = .look l ∧ id = l.matchFound

/-- The node is a look-ahead at which a match can stand. -/
def AtLookAhead (t : Tree) (id : NodeId) : Prop :=
  t.Standing id ∧ ∃ l, t.kind id = .look l ∧ l.direction = .ahead

variable {t : Tree} {id : NodeId}

theorem Ends.kind (h : t.WellFormed) (hid : t.Ends id) : t.kind id = .matchFound := by
  rcases hid with rfl | ⟨look, l, -, hl, rfl⟩
  · exact h.matchFound
  · exact h.kind_matchFound hl

theorem Ends.inPattern (hid : t.Ends id) : id = t.matchFound ∨ t.InPattern id := by
  refine hid.imp_right ?_
  rintro ⟨look, l, hlook, hl, rfl⟩
  exact hlook.child (matchFound_mem_children hl)

end Tree

namespace Nfa

variable {n : Nfa} {context : Context}

/-! ## Tasks, routes and walks within the pattern -/

/-- A task that can be pending while a walk is within the pattern. -/
def Task.Pending (t : Tree) : Task → Prop
  | .enter id => t.Standing id ∨ t.Ends id
  | .leave id => t.Standing id
  | .finishAlternative id => t.Standing id ∧ ∃ g, t.kind id = .group g
  | _ => True

structure Route.Fits (t : Tree) (r : Route) : Prop where
  goal : r.goal.Fits t
  spawned : ∀ id ∈ r.spawned, t.AtLookAhead id

namespace Walk

structure Fits (t : Tree) (w : Walk) : Prop where
  pending : ∀ task ∈ w.tasks, task.Pending t
  spawned : ∀ id ∈ w.spawned, t.AtLookAhead id
  routes : ∀ r ∈ w.routes, r.Fits t

variable {w w' : Walk} {id : NodeId}

theorem Fits.andThen {t : Tree} (h : w.Fits t) {tasks : List Task}
    (htasks : ∀ task ∈ tasks, task.Pending t) : (w.andThen tasks).Fits t where
  pending task htask := (List.mem_append.mp htask).elim (htasks task) (h.pending task)
  spawned := h.spawned
  routes := h.routes

theorem Fits.emit (h : w.Fits n.tree) {goal : Goal} (hgoal : goal.Fits n.tree) :
    (w.emit n goal).Fits n.tree := by
  unfold Walk.emit
  simp only
  split
  · exact h
  · refine ⟨h.pending, h.spawned, fun r hr => ?_⟩
    rcases List.mem_cons.mp hr with rfl | hr
    · exact ⟨hgoal, fun id hid => h.spawned id (List.mem_reverse.mp hid)⟩
    · exact h.routes r hr

theorem Fits.finishAlternative (h : w.Fits n.tree) (hid : n.tree.Standing id) :
    (w.finishAlternative n id).Fits n.tree := by
  refine h.andThen fun task htask => ?_
  simp only [List.mem_cons, List.not_mem_nil, or_false] at htask
  rcases htask with rfl | rfl | rfl
  · trivial
  · split
    · exact .inl hid
    · exact hid
  · trivial

/-- After the pattern or the body of a look-around a match ends; after a term comes the next one, or
the alternative is finished. -/
theorem Fits.leave (hn : n.tree.WellFormed) (h : w.Fits n.tree) (hid : n.tree.Standing id) :
    (w.leave n id).Fits n.tree := by
  cases hid with
  | root =>
    rw [Walk.leave, hn.root_parent]
    exact h.andThen fun task htask => List.mem_singleton.mp htask ▸ .inr (.inl rfl)
  | @body look l hlook hl =>
    have hparent := hn.parent_body hl
    rw [Walk.leave, hparent]
    simp only [hl]
    exact h.andThen fun task htask =>
      List.mem_singleton.mp htask ▸ .inr (.inr ⟨look, l, hlook.inPattern, hl, rfl⟩)
  | @term group a _ g k hgroup hg ha hc =>
    have hgrand := hn.parent_alternative hg ha
    rw [Walk.leave, hn.parent_of_term hc]
    simp only [Tree.kind_of_getElem? hc, hgrand, hn.index_term a k id hc]
    split
    · exact h
    · split
      · rename_i next hnext
        exact h.andThen fun task htask =>
          List.mem_singleton.mp htask ▸ .inl (.term (k + 1) hgroup hg ha hnext)
      · exact h.finishAlternative hgroup

theorem Fits.guarded (h : w.Fits n.tree) (hid : n.tree.Standing id) (g : Guard) :
    (w.guarded id g).Fits n.tree := by
  have hunder : Walk.Fits n.tree { w with guard := w.guard.union g } :=
    ⟨h.pending, h.spawned, h.routes⟩
  refine hunder.andThen fun task htask => ?_
  simp only [List.mem_cons, List.not_mem_nil, or_false] at htask
  rcases htask with rfl | rfl
  · exact hid
  · trivial

/-- A task that only goes on after a node at which a match can stand. -/
theorem Fits.andThen_leave (h : w.Fits n.tree) (hid : n.tree.Standing id) :
    (w.andThen [.leave id]).Fits n.tree :=
  h.andThen fun task htask => by
    rw [List.mem_singleton.mp htask]
    exact hid

theorem Fits.enterAssertion (h : w.Fits n.tree) (hid : n.tree.Standing id) (a : Assertion) :
    (w.enterAssertion n context id a).Fits n.tree := by
  cases a with
  | atStart =>
    unfold Walk.enterAssertion
    simp only
    split
    · exact h.andThen_leave hid
    · exact h
  | _ => exact h.guarded hid _

theorem Fits.enterLook (h : w.Fits n.tree) (hid : n.tree.Standing id) {l : LookAround}
    (hl : n.tree.kind id = .look l) : (w.enterLook n context id l).Fits n.tree := by
  unfold Walk.enterLook
  split
  · rename_i hdirection
    have hspawned : Walk.Fits n.tree { w with spawned := id :: w.spawned } :=
      ⟨h.pending, List.forall_mem_cons.mpr ⟨⟨hid, l, hl, hdirection⟩, h.spawned⟩, h.routes⟩
    refine hspawned.andThen fun task htask => ?_
    simp only [List.mem_cons, List.not_mem_nil, or_false] at htask
    rcases htask with rfl | rfl
    · exact hid
    · trivial
  · split
    · exact h
    · exact h.andThen_leave hid

theorem pending_enterAlternative {g : Group} (hid : n.tree.Standing id)
    (hg : n.tree.kind id = .group g) {a : NodeId} (ha : a ∈ g.alternatives) (quantifier : Bool) :
    ∀ task ∈ enterAlternative n id quantifier a, task.Pending n.tree := by
  unfold enterAlternative
  split
  · rename_i first others hterms
    have hfirst : n.tree.Standing first := .term 0 hid hg ha (by rw [hterms]; rfl)
    simp [Task.Pending, hfirst]
  · split
    · simp [Task.Pending, hid]
    · simp [Task.Pending, hid, hg]

theorem Fits.enter (hn : n.tree.WellFormed) (h : w.Fits n.tree)
    (hid : n.tree.Standing id ∨ n.tree.Ends id) : (w.enter n context id).Fits n.tree := by
  unfold Walk.enter
  rcases hid with hid | hid
  · split
    · rename_i set hk
      exact h.emit ⟨hid, set, hk⟩
    · exact h.emit trivial
    · exact h.enterAssertion hid _
    · rename_i l hl
      exact h.enterLook hid hl
    · rename_i g hg
      refine h.andThen fun task htask => ?_
      obtain ⟨a, ha, htask⟩ := List.mem_flatMap.mp htask
      exact pending_enterAlternative hid hg ha _ task htask
    · exact h
    · exact h
  · rw [hid.kind hn]
    exact h.emit trivial

/-- Doing a task keeps the walk within the pattern. -/
theorem Fits.step (hn : n.tree.WellFormed) (h : w.Fits n.tree) (hstep : Step n context w w') :
    w'.Fits n.tree := by
  obtain ⟨htasks, hw⟩ := hstep
  rename_i task tasks
  have hpending := h.pending
  rw [htasks] at hpending
  obtain ⟨htask, hrest⟩ := List.forall_mem_cons.mp hpending
  have hwalk : Walk.Fits n.tree { w with tasks } := ⟨hrest, h.spawned, h.routes⟩
  cases task with
  | enter id =>
    simp only [Walk.step] at hw
    split at hw
    · cases hw
      have hworked : Walk.Fits n.tree { w with tasks, work := w.work + 1 } :=
        ⟨hrest, h.spawned, h.routes⟩
      exact hworked.enter hn htask
    · cases hw
  | leave id =>
    cases hw
    exact hwalk.leave hn htask
  | finishAlternative group =>
    cases hw
    exact hwalk.finishAlternative htask.1
  | popSpawned =>
    cases hw
    exact ⟨hrest, fun id hid => h.spawned id (List.mem_of_mem_tail hid), h.routes⟩
  | _ =>
    cases hw
    exact ⟨hrest, h.spawned, h.routes⟩

theorem Fits.steps (hn : n.tree.WellFormed) (h : w.Fits n.tree)
    (hsteps : Relation.ReflTransGen (Step n context) w w') : w'.Fits n.tree :=
  steps_induction (fun h hstep => h.step hn hstep) h hsteps

theorem fits_start {task : Task} {t : Tree} (h : task.Pending t) (work : Nat) :
    Walk.Fits t { tasks := [task], work } :=
  ⟨List.forall_mem_singleton.mpr h, nofun, nofun⟩

end Walk

/-! ## States that arise -/

theorem fits_of_routes (hn : n.tree.WellFormed) {task : Task} (htask : task.Pending n.tree)
    {work : Nat} {found : List Route × Nat} (h : n.routes context task work = .ok found) :
    ∀ r ∈ found.1, r.Fits n.tree := by
  obtain ⟨w, hw, h⟩ := bind_eq_ok.mp h
  cases h
  have hfits := (Walk.fits_start htask work).steps hn (Walk.steps_of_run hw)
  exact fun r hr => hfits.routes r (List.mem_reverse.mp hr)

theorem pending_runTask {id : NodeId} (h : n.tree.AtLookAhead id) :
    (n.runTask id).Pending n.tree := by
  obtain ⟨hid, l, hl, -⟩ := h
  unfold runTask
  rw [hl]
  exact .inl (.body hid hl)

theorem leads_fits (hn : n.tree.WellFormed) :
    Leads n context (Task.Pending n.tree) (Route.Fits n.tree) where
  routes _ htask _ _ h := fits_of_routes hn htask h
  spawned _ hr id hid := pending_runTask (hr.spawned id hid)

/-- The tasks from which walks start in search of the transitions of a state. -/
inductive StartTask (n : Nfa) (s : State) : Task → Prop
  | resume {set : CodePointSet} (h : n.tree.kind s.main = .charClass set) :
    StartTask n s (.leave s.main)
  | enter (hclass : ∀ set, n.tree.kind s.main ≠ .charClass set)
    (hfound : n.tree.kind s.main ≠ .matchFound) : StartTask n s (.enter s.main)
  | lookAhead {id : NodeId} (h : id ∈ s.lookAheads) : StartTask n s (.leave id)
  | spawned {task : Task} {work : Nat} {found : List Route × Nat} {r : Route} {id : NodeId}
    (h : StartTask n s task) (hfound : n.routes s.context task work = .ok found) (hr : r ∈ found.1)
    (hid : id ∈ r.spawned) : StartTask n s (n.runTask id)

/-- A walk in search of the transitions of a state comes to enter the node. -/
def Enters (n : Nfa) (s : State) (id : NodeId) : Prop :=
  ∃ task work w tasks, n.StartTask s task ∧
    Relation.ReflTransGen (Walk.Step n s.context) { tasks := [task], work } w ∧
    w.tasks = .enter id :: tasks

/-- The states that transitions lead to from the beginning of a match, whatever the text. -/
inductive Arises (n : Nfa) : State → Prop
  | initial (context : Context) : Arises n (n.initial context)
  | next {s : State} {ts : List Transition} {t : Transition} {main : NodeId}
    {lookAheads : List NodeId} (h : Arises n s) (hts : n.transitions s = .ok ts) (ht : t ∈ ts)
    (htarget : t.target = .next main lookAheads) (context : Context) :
    Arises n { main, lookAheads, context }

variable {s : State}

theorem StartTask.pending (hn : n.tree.WellFormed) (hs : s.Fits n.tree) {task : Task}
    (h : n.StartTask s task) : task.Pending n.tree := by
  induction h with
  | resume hclass => exact hs.main.resolve_left (by simp [hclass])
  | enter _ hfound => exact .inl (hs.main.resolve_left hfound)
  | lookAhead hid => exact hs.lookAheads _ hid
  | spawned _ hfound hr hid ih =>
    exact pending_runTask ((fits_of_routes hn ih hfound _ hr).spawned _ hid)

theorem fits_of_mainRoutes (hn : n.tree.WellFormed) (hs : s.Fits n.tree)
    {found : List Route × Nat} (h : n.mainRoutes s = .ok found) : ∀ r ∈ found.1, r.Fits n.tree := by
  unfold mainRoutes at h
  split at h
  · cases h
    exact List.forall_mem_singleton.mpr ⟨trivial, nofun⟩
  · rename_i hk
    exact fits_of_routes hn (StartTask.resume hk |>.pending hn hs) h
  · rename_i hfound hclass
    exact fits_of_routes hn (StartTask.enter hclass hfound |>.pending hn hs) h

/-- The places that a transition leads to are classes of the pattern, or the end of the match. -/
theorem goals_of_transitions (hn : n.tree.WellFormed) (hs : s.Fits n.tree) {ts : List Transition}
    (hts : n.transitions s = .ok ts) {t : Transition} (ht : t ∈ ts) {main : NodeId}
    {lookAheads : List NodeId} (htarget : t.target = .next main lookAheads) :
    (main = n.tree.matchFound ∨ (Goal.consume main).Fits n.tree) ∧
      ∀ id ∈ lookAheads, (Goal.consume id).Fits n.tree := by
  refine transitions_induction (P := Combination.Fits n.tree) (Q := fun t => ∀ main lookAheads,
      t.target = .next main lookAheads → (main = n.tree.matchFound ∨ (Goal.consume main).Fits n.tree) ∧
        ∀ id ∈ lookAheads, (Goal.consume id).Fits n.tree)
    (leads_fits hn) (fun _ => fits_of_mainRoutes hn hs) hs.lookAheads
    (fun r hr => Combination.fits_ofMain hr.goal) (fun c r c' hc hr hc' => ?_)
    (fun c hc main lookAheads htarget => ?_) hts t ht main lookAheads htarget
  · rw [Combination.addLookAhead?_eq_some hc']
    exact Combination.fits_withLookAhead hr.goal hc
  · unfold Combination.transition at htarget
    simp only at htarget
    split at htarget
    · cases htarget
    · cases htarget
      refine ⟨?_, hc.lookAheads⟩
      cases hmain : c.main with
      | none => exact .inl rfl
      | some id => exact .inr (hc.main id hmain)

theorem fits_of_transitions (hn : n.tree.WellFormed) (hs : s.Fits n.tree) {ts : List Transition}
    (hts : n.transitions s = .ok ts) {t : Transition} (ht : t ∈ ts) {main : NodeId}
    {lookAheads : List NodeId} (htarget : t.target = .next main lookAheads) (context : Context) :
    State.Fits n.tree { main, lookAheads, context } := by
  obtain ⟨hmain, hlookAheads⟩ := goals_of_transitions hn hs hts ht htarget
  refine ⟨hmain.imp (fun h => ?_) (fun h => h.1), fun id hid => (hlookAheads id hid).1⟩
  rw [h]
  exact hn.matchFound

theorem Arises.fits (hn : n.tree.WellFormed) (h : n.Arises s) : s.Fits n.tree := by
  induction h with
  | initial => exact ⟨.inr .root, nofun⟩
  | next _ hts ht htarget context ih => exact fits_of_transitions hn ih hts ht htarget context

/-- No walk leaves the pattern. -/
theorem State.Fits.enters (hn : n.tree.WellFormed) (hs : s.Fits n.tree) {id : NodeId}
    (h : n.Enters s id) : n.tree.Standing id ∨ n.tree.Ends id := by
  obtain ⟨task, work, w, tasks, hstart, hsteps, htasks⟩ := h
  have hfits := (Walk.fits_start (hstart.pending hn hs) work).steps hn hsteps
  exact hfits.pending _ (by rw [htasks]; exact List.mem_cons_self)

end Nfa

end PatternAutomata
