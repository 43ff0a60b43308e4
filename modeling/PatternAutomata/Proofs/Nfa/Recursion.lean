import Mathlib.Data.List.Perm.Subperm
import PatternAutomata.Nfa.Recursion
import PatternAutomata.Proofs.Pattern.Reader
import PatternAutomata.Proofs.Nfa.Raising

/-!
# The stack of tasks and the recursion

Whatever else is pending, a walk does the task of a point by exploring all branches from it, and then has
the path, the guard and the look-aheads that it had before. So it finds what the recursion finds, in the
same order and with the same work. Each node that is entered lets the walk do a bounded number of
tasks, and lets a branch go up in the tree once; so neither of them ends early.
-/

namespace PatternAutomata.Nfa

variable {n : Nfa} {context : Context}

/-- The task that explores a point. -/
def Point.task : Point → Task
  | before id => .enter id
  | after id => .leave id

/-- A walk on a branch. -/
def Carried.walk (c : Carried) (tasks : List Task) (f : Findings) : Walk where
  path := c.path
  guard := c.guard
  spawned := c.spawned
  tasks := tasks
  routes := f.routes
  work := f.work

/-! ## Costs -/

/-- How many tasks the walk may do for a node that it enters, besides those for nodes entered later. -/
def tasksPerNode (n : Nfa) : Nat := (n.tree.size + 1) * (3 * n.tree.size + 7)

/-- How many tasks the walk may do at a point before it enters a node. -/
def Point.tasks (t : Tree) : Point → Nat
  | before _ => 1
  | after id => 3 * (t.size - id) + 2

/-- How many points a branch may go through before it enters a node. -/
def Point.height (t : Tree) : Point → Nat
  | before _ => 1
  | after id => t.size - id + 2

/-- How long the branches from a point may be. -/
def depthNeeded (n : Nfa) (p : Point) (work : Nat) : Nat :=
  (n.workLimit - work) * (n.tree.size + 3) + p.height n.tree

theorem Point.tasks_le (t : Tree) (p : Point) : p.tasks t ≤ 3 * t.size + 2 := by
  cases p with
  | before id => exact Nat.le_add_left 1 _
  | after id => exact Nat.add_le_add_right (Nat.mul_le_mul_left 3 (Nat.sub_le ..)) 2

theorem Point.height_le (t : Tree) (p : Point) : p.height t ≤ t.size + 2 := by
  cases p with
  | before id => exact Nat.le_add_left 1 _
  | after id => exact Nat.add_le_add_right (Nat.sub_le ..) 2

theorem le_tasksPerNode (n : Nfa) : 3 * n.tree.size + 7 ≤ n.tasksPerNode :=
  Nat.le_mul_of_pos_left _ (Nat.zero_lt_succ n.tree.size)

/-- When one more node has been entered, less depth is needed wherever the branch is. -/
theorem depthNeeded_le {work work' depth : Nat} {id : NodeId} (p : Point)
    (h : n.depthNeeded (.before id) work ≤ depth + 1) (hlimit : work < n.workLimit)
    (hwork : work < work') : n.depthNeeded p work' ≤ depth := by
  have hp := p.height_le n.tree
  have hrest : (n.workLimit - work') * (n.tree.size + 3) + (n.tree.size + 3) ≤
      (n.workLimit - work) * (n.tree.size + 3) := by
    rw [← Nat.succ_mul]
    exact Nat.mul_le_mul_right _ (by omega)
  have hone : Point.height n.tree (.before id) = 1 := rfl
  unfold depthNeeded at h ⊢
  omega

/-! ## What a walk comes to -/

/-- The walk comes to `w'`. It may do `cost` tasks, and more for each node that it enters on the way. -/
structure GoesTo (n : Nfa) (context : Context) (cost : Nat) (w w' : Walk) : Prop where
  work_le : w.work ≤ w'.work
  within : w'.work ≤ max w.work n.workLimit
  run : ∃ steps, n.tasksPerNode * w.work + steps ≤ n.tasksPerNode * w'.work + cost ∧
    ∀ fuel, Walk.run n context (fuel + steps) w = Walk.run n context fuel w'

/-- The walk comes to what the recursion has found, or fails if the recursion does. -/
def ComesTo (n : Nfa) (context : Context) (cost : Nat) (w : Walk) : Except Bailout Walk → Prop
  | .ok w' => GoesTo n context cost w w'
  | .error e => e = tooLarge ∧ ∀ fuel, Walk.run n context fuel w = .error tooLarge

section ComesTo

variable {cost cost' : Nat} {w w' w1 : Walk} {task : Task} {tasks : List Task}
  {result : Except Bailout Walk}

theorem run_eq_error {fuel : Nat} {e : Bailout} (h : Walk.run n context fuel w = .error e) :
    e = tooLarge := by
  induction fuel generalizing w with
  | zero =>
    unfold Walk.run at h
    split at h
    · cases h
    · cases h
      rfl
  | succ fuel ih =>
    unfold Walk.run at h
    split at h
    · cases h
    · rename_i task tasks _
      cases hstep : Walk.step n context task { w with tasks } with
      | ok w1 =>
        rw [hstep] at h
        exact ih h
      | error e' =>
        rw [hstep] at h
        cases h
        cases task with
        | enter id =>
          simp only [Walk.step] at hstep
          split at hstep
          · cases hstep
          · cases hstep
            rfl
        | _ => cases hstep

theorem GoesTo.refl (w : Walk) : GoesTo n context 0 w w where
  work_le := Nat.le_refl _
  within := Nat.le_max_left ..
  run := ⟨0, Nat.le_refl _, fun _ => rfl⟩

theorem GoesTo.trans (h : GoesTo n context cost w w1) (h' : GoesTo n context cost' w1 w') :
    GoesTo n context (cost + cost') w w' := by
  obtain ⟨hle, hwithin, steps, hsteps, hrun⟩ := h
  obtain ⟨hle', hwithin', steps', hsteps', hrun'⟩ := h'
  refine ⟨Nat.le_trans hle hle', by omega, steps' + steps, by omega, fun fuel => ?_⟩
  rw [← Nat.add_assoc, hrun, hrun']

/-- A task other than that of a node costs one. -/
theorem GoesTo.single (htasks : w.tasks = task :: tasks)
    (hstep : Walk.step n context task { w with tasks } = .ok w1) (hwork : w1.work = w.work) :
    GoesTo n context 1 w w1 where
  work_le := Nat.le_of_eq hwork.symm
  within := hwork ▸ Nat.le_max_left ..
  run := by
    refine ⟨1, Nat.le_of_eq (by rw [hwork]), fun fuel => ?_⟩
    rw [Walk.run, htasks]
    simp only [hstep]
    rfl

theorem ComesTo.mono (h : ComesTo n context cost w result) (hcost : cost ≤ cost') :
    ComesTo n context cost' w result := by
  cases result with
  | ok w' =>
    obtain ⟨hle, hwithin, steps, hsteps, hrun⟩ := h
    exact ⟨hle, hwithin, steps, Nat.le_trans hsteps (Nat.add_le_add_left hcost _), hrun⟩
  | error e => exact h

/-- A walk fails if it comes to one that fails. -/
theorem GoesTo.comesTo (h : GoesTo n context cost w w1) (h' : ComesTo n context cost' w1 result) :
    ComesTo n context (cost + cost') w result := by
  cases result with
  | ok w' => exact h.trans h'
  | error e =>
    obtain ⟨he, hfails⟩ := h'
    obtain ⟨-, -, steps, -, hrun⟩ := h
    refine ⟨he, fun fuel => ?_⟩
    cases hfuel : Walk.run n context fuel w with
    | error e' => rw [run_eq_error hfuel]
    | ok w' =>
      -- More fuel would not change the result.
      have hmore := Walk.run_withMaxStates (Nat.le_refl n.maxStates) (Nat.le_add_right fuel steps) hfuel
      have hmore : Walk.run n context (fuel + steps) w = .ok w' := hmore
      rw [hrun, hfails] at hmore
      cases hmore

/-- Where the recursion goes on from what it has found, so does the walk. -/
theorem ComesTo.bind {result : Except Bailout Findings} {f f' : Findings → Walk}
    {next : Findings → Except Bailout Findings} (h : ComesTo n context cost w (result.map f))
    (hnext : ∀ found, GoesTo n context cost w (f found) →
      ComesTo n context cost' (f found) ((next found).map f')) :
    ComesTo n context (cost + cost') w ((result >>= next).map f') := by
  cases result with
  | ok found => exact GoesTo.comesTo h (hnext found h)
  | error e => exact h

theorem ComesTo.andThen {result : Except Bailout Findings} {f f' : Findings → Walk}
    (h : ComesTo n context cost w (result.map f))
    (hnext : ∀ found, GoesTo n context cost' (f found) (f' found)) :
    ComesTo n context (cost + cost') w (result.map f') := by
  cases result with
  | ok found => exact GoesTo.trans h (hnext found)
  | error e => exact h

/-- Entering a node is paid for by the work that is counted for it. -/
theorem comesTo_enter {id : NodeId} (htasks : w.tasks = .enter id :: tasks) (hwork : w.work < n.workLimit)
    (h : ComesTo n context cost (Walk.enter n context id { w with tasks, work := w.work + 1 }) result)
    (henter : (Walk.enter n context id { w with tasks, work := w.work + 1 }).work = w.work + 1)
    (hcost : cost ≤ n.tasksPerNode) : ComesTo n context 1 w result := by
  have hstep : Walk.step n context (.enter id) { w with tasks } =
      .ok (Walk.enter n context id { w with tasks, work := w.work + 1 }) := if_pos hwork
  have hrun : ∀ fuel, Walk.run n context (fuel + 1) w =
      Walk.run n context fuel (Walk.enter n context id { w with tasks, work := w.work + 1 }) := fun fuel => by
    rw [Walk.run, htasks]
    simp only [hstep]
    rfl
  cases result with
  | ok w' =>
    obtain ⟨hle, hwithin, steps, hsteps, hrun'⟩ := h
    rw [henter] at hle hwithin hsteps
    refine ⟨Nat.le_of_succ_le hle, by omega, steps + 1, ?_, fun fuel => ?_⟩
    · rw [Nat.mul_add] at hsteps
      omega
    · rw [← Nat.add_assoc, hrun, hrun']
  | error e =>
    refine ⟨h.1, fun fuel => ?_⟩
    cases fuel with
    | zero =>
      rw [Walk.run, htasks]
      rfl
    | succ fuel => rw [hrun, h.2]

/-- No node is entered beyond the limit. -/
theorem comesTo_error {id : NodeId} (htasks : w.tasks = .enter id :: tasks)
    (hwork : ¬w.work < n.workLimit) : ComesTo n context cost w (.error tooLarge) := by
  refine ⟨rfl, fun fuel => ?_⟩
  have hstep : Walk.step n context (.enter id) { w with tasks } = .error tooLarge := if_neg hwork
  cases fuel with
  | zero =>
    rw [Walk.run, htasks]
    rfl
  | succ fuel =>
    rw [Walk.run, htasks]
    simp only [hstep]
    rfl

end ComesTo

/-! ## A point -/

/-- The walk explores the points of shorter branches as `go` does. -/
def DoesAs (n : Nfa) (context : Context) (depth : Nat) (go : Explorer) : Prop :=
  ∀ p c f, n.depthNeeded p f.work ≤ depth → ∀ rest,
    ComesTo n context (p.tasks n.tree) (c.walk (p.task :: rest) f) ((go p c f).map (c.walk rest))

section Points

variable {depth cost : Nat} {go : Explorer} {c : Carried} {f : Findings} {rest : List Task} {id : NodeId}
  {p : Point}

/-- A path element is taken back when the point after it has been explored. -/
theorem DoesAs.onPath (h : DoesAs n context depth go) (c : Carried) (rest : List Task)
    (e : PathElement) (hdepth : n.depthNeeded p f.work ≤ depth) :
    ComesTo n context (p.tasks n.tree + 2)
      (c.walk (.pushPath e :: p.task :: .popPath :: rest) f) ((go p (c.push e) f).map (c.walk rest)) := by
  have hpush : GoesTo n context 1 (c.walk (.pushPath e :: p.task :: .popPath :: rest) f)
      ((c.push e).walk (p.task :: .popPath :: rest) f) := .single rfl rfl rfl
  have hpop : ∀ found, GoesTo n context 1 ((c.push e).walk (.popPath :: rest) found)
      (c.walk rest found) := fun found => .single rfl rfl rfl
  have hpoint := (h p (c.push e) f hdepth (.popPath :: rest)).andThen hpop
  exact (hpush.comesTo hpoint).mono (by omega)

theorem task_afterAlternative (n : Nfa) (group : NodeId) : (n.afterAlternative group).task =
    if (n.tree.group? group).any Group.isLoop then .enter group else .leave group := by
  unfold afterAlternative
  split <;> rfl

/-- What follows an alternative of a group is cheaper than what follows a node in it. -/
theorem tasks_afterAlternative_le {group : NodeId} (hid : id < group) (hgroup : group < n.tree.size) :
    (n.afterAlternative group).tasks n.tree + 3 ≤ (Point.after id).tasks n.tree ∧
      (n.afterAlternative group).height n.tree + 1 ≤ (Point.after id).height n.tree := by
  have hlt : n.tree.size - group < n.tree.size - id := Nat.sub_lt_sub_left (Nat.lt_trans hid hgroup) hid
  unfold afterAlternative
  split
  · exact ⟨show 1 + 3 ≤ 3 * (n.tree.size - id) + 2 by omega, show 1 + 1 ≤ n.tree.size - id + 2 by omega⟩
  · exact ⟨show 3 * (n.tree.size - group) + 2 + 3 ≤ 3 * (n.tree.size - id) + 2 by omega,
      show n.tree.size - group + 2 + 1 ≤ n.tree.size - id + 2 by omega⟩

/-- The walk goes on after a node by another task. -/
theorem comesTo_leave {w : Walk} {result : Except Bailout Walk}
    (hleave : (c.walk rest f).leave n id = w) (hwork : w.work = f.work)
    (h : ComesTo n context cost w result) :
    ComesTo n context (cost + 1) (c.walk (.leave id :: rest) f) result := by
  have hstep : GoesTo n context 1 (c.walk (.leave id :: rest) f) w :=
    .single rfl (congrArg Except.ok hleave) hwork
  exact (hstep.comesTo h).mono (Nat.le_of_eq (Nat.add_comm ..))

theorem isEmptyIteration_walk (group : NodeId) :
    (c.walk rest f).isEmptyIteration n group = c.hasBegun n group := by
  unfold Walk.isEmptyIteration Carried.hasBegun
  cases n.tree.group? group <;> rfl

theorem finishAlternative_walk (group : NodeId) : (c.walk rest f).finishAlternative n group =
    c.walk (.pushPath (.exit group) :: (n.afterAlternative group).task :: .popPath :: rest) f := by
  rw [task_afterAlternative]
  rfl

/-- Nothing is left to do after the node. -/
theorem comesTo_end (hleave : (c.walk rest f).leave n id = c.walk rest f) :
    ComesTo n context ((Point.after id).tasks n.tree) (c.walk (.leave id :: rest) f)
      ((Except.ok f).map (c.walk rest)) := by
  have hstays : ComesTo n context 0 (c.walk rest f) ((Except.ok f).map (c.walk rest)) := GoesTo.refl _
  have htasks : 2 ≤ (Point.after id).tasks n.tree := Nat.le_add_left ..
  exact (comesTo_leave hleave rfl hstays).mono (Nat.le_of_succ_le htasks)

/-- The walk enters another node. -/
theorem DoesAs.next (h : DoesAs n context depth go) {next : NodeId}
    (hdepth : n.depthNeeded (.after id) f.work ≤ depth + 1)
    (hleave : (c.walk rest f).leave n id = c.walk (.enter next :: rest) f) :
    ComesTo n context ((Point.after id).tasks n.tree) (c.walk (.leave id :: rest) f)
      ((go (.before next) c f).map (c.walk rest)) := by
  have htasks : 2 ≤ (Point.after id).tasks n.tree := Nat.le_add_left ..
  have hheight : 2 ≤ (Point.after id).height n.tree := Nat.le_add_left ..
  have hone : (Point.before next).height n.tree = 1 := rfl
  have hless : n.depthNeeded (.before next) f.work ≤ depth := by
    unfold depthNeeded at hdepth ⊢
    omega
  exact (comesTo_leave hleave rfl (h (.before next) c f hless rest)).mono htasks

/-- The walk comes to the end of a group. -/
theorem DoesAs.exit (h : DoesAs n context depth go) {group : NodeId} (hid : id < group)
    (hgroup : group < n.tree.size) (hdepth : n.depthNeeded (.after id) f.work ≤ depth + 1)
    (hleave : (c.walk rest f).leave n id = (c.walk rest f).finishAlternative n group) :
    ComesTo n context ((Point.after id).tasks n.tree) (c.walk (.leave id :: rest) f)
      ((go (n.afterAlternative group) (c.push (.exit group)) f).map (c.walk rest)) := by
  obtain ⟨hcost, hlower⟩ := tasks_afterAlternative_le hid hgroup
  have hless : n.depthNeeded (n.afterAlternative group) f.work ≤ depth := by
    unfold depthNeeded at hdepth ⊢
    omega
  have hexit := h.onPath c rest (.exit group) hless
  exact (comesTo_leave (hleave.trans (finishAlternative_walk group)) rfl hexit).mono hcost

/-- The walk goes on after a term of an alternative as the recursion does. -/
theorem DoesAs.afterTerm (h : DoesAs n context depth go) (hn : n.tree.WellFormed)
    {parent group : NodeId} {terms : List NodeId} (hparent : n.tree.parent id = some parent)
    (hkind : n.tree.kind parent = .sequence terms) (hgroup : n.tree.parent parent = some group)
    (hdepth : n.depthNeeded (.after id) f.work ≤ depth + 1) :
    ComesTo n context ((Point.after id).tasks n.tree) (c.walk (.leave id :: rest) f)
      ((exploreAfter n go id c f).map (c.walk rest)) := by
  have hchild := hn.child_of_parent group parent hgroup
  have hid : id < group := Nat.lt_trans
    (hn.child_lt parent id (hn.child_of_parent parent id hparent)) (hn.child_lt group parent hchild)
  simp only [exploreAfter, hparent, hkind, hgroup]
  by_cases hempty : ((n.tree.place id).index = 0 && c.hasBegun n group) = true
  · rw [if_pos hempty]
    refine comesTo_end ?_
    simp only [Walk.leave, hparent, hkind, hgroup, isEmptyIteration_walk]
    exact if_pos hempty
  · rw [if_neg hempty]
    cases hnext : terms[(n.tree.place id).index + 1]? with
    | some next =>
      refine h.next hdepth ?_
      simp only [Walk.leave, hparent, hkind, hgroup, isEmptyIteration_walk, hnext]
      exact if_neg hempty
    | none =>
      refine h.exit hid (Tree.lt_size_of_child hchild) hdepth ?_
      simp only [Walk.leave, hparent, hkind, hgroup, isEmptyIteration_walk, hnext]
      exact if_neg hempty

/-- The walk goes on after a node as the recursion does. -/
theorem DoesAs.after (h : DoesAs n context depth go) (hn : n.tree.WellFormed)
    (hdepth : n.depthNeeded (.after id) f.work ≤ depth + 1) :
    ComesTo n context ((Point.after id).tasks n.tree) (c.walk (.leave id :: rest) f)
      ((exploreAfter n go id c f).map (c.walk rest)) := by
  cases hparent : n.tree.parent id with
  | none =>
    simp only [exploreAfter, hparent]
    refine h.next hdepth ?_
    simp only [Walk.leave, hparent]
    rfl
  | some parent =>
    cases hkind : n.tree.kind parent with
    | sequence terms =>
      cases hgroup : n.tree.parent parent with
      | none =>
        simp only [exploreAfter, hparent, hkind, hgroup]
        exact comesTo_end (by simp only [Walk.leave, hparent, hkind, hgroup])
      | some group => exact h.afterTerm hn hparent hkind hgroup hdepth
    | look l =>
      simp only [exploreAfter, hparent, hkind]
      refine h.next hdepth ?_
      simp only [Walk.leave, hparent, hkind]
      rfl
    | _ =>
      simp only [exploreAfter, hparent, hkind]
      exact comesTo_end (by simp only [Walk.leave, hparent, hkind])

theorem emit_walk (goal : Goal) :
    (c.walk rest f).emit n goal = c.walk rest (f.add (c.route n goal)) := by
  rw [Findings.add, apply_ite (c.walk rest)]
  rfl

theorem under_empty : c.under {} = c := by
  obtain ⟨path, guard, spawned⟩ := c
  simp [Carried.under, Guard.union]

/-- Under a further guard the walk goes on after the node, and then has its guard back. -/
theorem DoesAs.guarded (h : DoesAs n context depth go) (guard : Guard)
    (hdepth : n.depthNeeded (.after id) f.work ≤ depth) :
    ComesTo n context (3 * n.tree.size + 3) ((c.walk rest f).guarded id guard)
      ((go (.after id) (c.under guard) f).map (c.walk rest)) := by
  have hset : ∀ found, GoesTo n context 1 ((c.under guard).walk (.setGuard c.guard :: rest) found)
      (c.walk rest found) := fun found => .single rfl rfl rfl
  have hpoint := (h (.after id) (c.under guard) f hdepth (.setGuard c.guard :: rest)).andThen hset
  exact hpoint.mono (Nat.add_le_add_right ((Point.after id).tasks_le n.tree) 1)

theorem DoesAs.assertion (h : DoesAs n context depth go) (a : Assertion)
    (hdepth : n.depthNeeded (.after id) f.work ≤ depth) :
    ComesTo n context (3 * n.tree.size + 3) ((c.walk rest f).enterAssertion n context id a)
      ((match n.assertionGuard? context a with
        | some guard => go (.after id) (c.under guard) f
        | none => .ok f).map (c.walk rest)) := by
  cases a with
  | atStart =>
    unfold Walk.enterAssertion assertionGuard?
    simp only
    split
    · simp only [under_empty]
      exact (h (.after id) c f hdepth rest).mono
        (Nat.le_succ_of_le ((Point.after id).tasks_le n.tree))
    · exact ComesTo.mono (GoesTo.refl _) (Nat.zero_le _)
  | _ => exact h.guarded _ hdepth

theorem DoesAs.look (h : DoesAs n context depth go) (l : LookAround)
    (hdepth : n.depthNeeded (.after id) f.work ≤ depth) :
    ComesTo n context (3 * n.tree.size + 3) ((c.walk rest f).enterLook n context id l)
      ((match l.direction with
        | .ahead => go (.after id) (c.spawn id) f
        | .behind => if Walk.holds context (n.lookBehinds.entry? id) = l.negated then .ok f
          else go (.after id) c f).map (c.walk rest)) := by
  unfold Walk.enterLook
  cases l.direction with
  | ahead =>
    have hpop : ∀ found, GoesTo n context 1 ((c.spawn id).walk (.popSpawned :: rest) found)
        (c.walk rest found) := fun found => .single rfl rfl rfl
    have hpoint := (h (.after id) (c.spawn id) f hdepth (.popSpawned :: rest)).andThen hpop
    exact hpoint.mono (Nat.add_le_add_right ((Point.after id).tasks_le n.tree) 1)
  | behind =>
    simp only
    split
    · exact ComesTo.mono (GoesTo.refl _) (Nat.zero_le _)
    · exact (h (.after id) c f hdepth rest).mono
        (Nat.le_succ_of_le ((Point.after id).tasks_le n.tree))

/-- The walk enters a group by an alternative as the recursion does. -/
theorem DoesAs.alternative (h : DoesAs n context depth go) (c : Carried) (rest : List Task)
    (id : NodeId) (g : Group) (a : NodeId) (hdepth : ∀ p, n.depthNeeded p f.work ≤ depth) :
    ComesTo n context (3 * n.tree.size + 7)
      (c.walk (Walk.enterAlternative n id g.isQuantifier a ++ rest) f)
      ((exploreAlternative n go id g c f a).map (c.walk rest)) := by
  unfold Walk.enterAlternative exploreAlternative
  cases n.tree.terms a with
  | cons first _ =>
    exact (h.onPath c rest (p := .before first) (.enter id) (hdepth _)).mono (Nat.le_add_left ..)
  | nil =>
    simp only
    split
    · have htasks := (Point.after id).tasks_le n.tree
      exact (h.onPath c rest (p := .after id) (.pass id) (hdepth _)).mono (by omega)
    · have hpush : GoesTo n context 1
          (c.walk (.pushPath (.enter id) :: .finishAlternative id :: .popPath :: rest) f)
          ((c.push (.enter id)).walk (.finishAlternative id :: .popPath :: rest) f) := .single rfl rfl rfl
      have hfinish : GoesTo n context 1
          ((c.push (.enter id)).walk (.finishAlternative id :: .popPath :: rest) f)
          ((c.push (.enter id)).walk (.pushPath (.exit id) :: (n.afterAlternative id).task ::
            .popPath :: .popPath :: rest) f) :=
        .single rfl (congrArg Except.ok (finishAlternative_walk id)) rfl
      have hpop : ∀ found, GoesTo n context 1 ((c.push (.enter id)).walk (.popPath :: rest) found)
          (c.walk rest found) := fun found => .single rfl rfl rfl
      have hexit := (h.onPath (c.push (.enter id)) (.popPath :: rest) (.exit id)
        (hdepth (n.afterAlternative id))).andThen hpop
      have htasks := (n.afterAlternative id).tasks_le n.tree
      exact (hpush.comesTo (hfinish.comesTo hexit)).mono (by omega)

/-- The alternatives are tried in their order. -/
theorem DoesAs.alternatives (h : DoesAs n context depth go) (c : Carried) (rest : List Task)
    (id : NodeId) (g : Group) {work : Nat}
    (hdepth : ∀ p work', work ≤ work' → n.depthNeeded p work' ≤ depth) (as : List NodeId)
    (hwork : work ≤ f.work) :
    ComesTo n context (as.length * (3 * n.tree.size + 7))
      (c.walk (as.flatMap (Walk.enterAlternative n id g.isQuantifier) ++ rest) f)
      ((as.foldlM (exploreAlternative n go id g c) f).map (c.walk rest)) := by
  induction as generalizing f with
  | nil => exact ComesTo.mono (GoesTo.refl _) (Nat.zero_le _)
  | cons a as ih =>
    rw [List.flatMap_cons, List.append_assoc, List.foldlM_cons]
    have hfirst := h.alternative c (as.flatMap (Walk.enterAlternative n id g.isQuantifier) ++ rest) id g a
      (fun p => hdepth p f.work hwork)
    refine (hfirst.bind fun found hgoes => ih (Nat.le_trans hwork hgoes.work_le)).mono ?_
    rw [List.length_cons, Nat.add_one_mul as.length]
    omega

/-- Entering a node changes nothing but what is pending, under which conditions, and the routes. -/
theorem work_enter (w : Walk) (id : NodeId) : (w.enter n context id).work = w.work := by
  unfold Walk.enter
  cases n.tree.kind id with
  | charClass | matchFound =>
    simp only [Walk.emit]
    split <;> rfl
  | assertion a =>
    cases a with
    | atStart =>
      simp only [Walk.enterAssertion]
      split <;> rfl
    | _ => rfl
  | look l =>
    simp only [Walk.enterLook]
    cases l.direction with
    | ahead => rfl
    | behind =>
      simp only
      split <;> rfl
  | _ => rfl

theorem length_alternatives_le (hn : n.tree.WellFormed) {g : Group} (hg : n.tree.kind id = .group g) :
    g.alternatives.length ≤ n.tree.size := by
  have hchildren : (n.tree.kind id).children = g.alternatives := by rw [hg]; rfl
  have hnodup := hn.nodup id
  have hlt := hn.child_lt id
  rw [hchildren] at hnodup hlt
  have hsub : g.alternatives ⊆ List.range n.tree.size := fun a ha =>
    List.mem_range.mpr (Nat.lt_trans (hlt a ha) (Tree.lt_size_of_child (hchildren ▸ ha)))
  simpa using (hnodup.subperm hsub).length_le

/-- The walk enters a node as the recursion does. -/
theorem DoesAs.before (h : DoesAs n context depth go) (hn : n.tree.WellFormed)
    (hdepth : n.depthNeeded (.before id) f.work ≤ depth + 1) :
    ComesTo n context 1 (c.walk (.enter id :: rest) f)
      ((exploreBefore n context go id c f).map (c.walk rest)) := by
  unfold exploreBefore
  by_cases hwork : f.work < n.workLimit
  · rw [if_pos hwork]
    have hshorter : ∀ p work', f.work + 1 ≤ work' → n.depthNeeded p work' ≤ depth := fun p work' hlt =>
      depthNeeded_le p hdepth hwork hlt
    generalize hf : ({ f with work := f.work + 1 } : Findings) = f1
    have hwork1 : f1.work = f.work + 1 := hf ▸ rfl
    have hcost : 3 * n.tree.size + 3 ≤ n.tasksPerNode :=
      Nat.le_trans (Nat.add_le_add_left (by decide) _) n.le_tasksPerNode
    have hafter : n.depthNeeded (.after id) f1.work ≤ depth := hshorter _ _ (Nat.le_of_eq hwork1.symm)
    refine comesTo_enter rfl hwork ?_ (work_enter ..) (Nat.le_refl _)
    have hwalk : ({ c.walk (.enter id :: rest) f with tasks := rest, work := f.work + 1 } : Walk) =
        c.walk rest f1 := hf ▸ rfl
    rw [show (c.walk (.enter id :: rest) f).work = f.work from rfl, hwalk]
    unfold Walk.enter
    cases hkind : n.tree.kind id with
    | charClass | matchFound =>
      simp only [emit_walk]
      exact ComesTo.mono (GoesTo.refl _) (Nat.zero_le _)
    | assertion a => exact (h.assertion a hafter).mono hcost
    | look l => exact (h.look l hafter).mono hcost
    | group g =>
      have hall := h.alternatives c rest id g hshorter g.alternatives (Nat.le_of_eq hwork1.symm)
      exact hall.mono (Nat.mul_le_mul_right _ (Nat.le_succ_of_le (length_alternatives_le hn hkind)))
    | _ => exact ComesTo.mono (GoesTo.refl _) (Nat.zero_le _)
  · rw [if_neg hwork]
    exact comesTo_error rfl hwork

end Points

/-! ## All points -/

/-- The walk does the task of a point as the recursion explores the point. -/
theorem doesAs_explore (hn : n.tree.WellFormed) (context : Context) (depth : Nat) :
    DoesAs n context depth (explore n context depth) := by
  induction depth with
  | zero =>
    intro p c f hdepth
    have hheight : 1 ≤ p.height n.tree := by
      cases p with
      | before id => exact Nat.le_refl _
      | after id => exact Nat.le_add_left ..
    unfold depthNeeded at hdepth
    omega
  | succ depth ih =>
    intro p c f hdepth rest
    cases p with
    | before id => exact ih.before hn hdepth
    | after id => exact ih.after hn hdepth

theorem cost_le_maxTasks (n : Nfa) (p : Point) :
    n.tasksPerNode * n.workLimit + p.tasks n.tree ≤ Walk.maxTasks n := by
  have htasks := p.tasks_le n.tree
  have hleast := n.le_tasksPerNode
  have hnode : n.tasksPerNode ≤ 4 * (n.tree.size + 2) * (n.tree.size + 2) := by
    rw [Nat.mul_comm]
    exact Nat.mul_le_mul (by omega) (by omega)
  calc n.tasksPerNode * n.workLimit + p.tasks n.tree
    _ ≤ n.tasksPerNode * n.workLimit + n.tasksPerNode * 2 := by omega
    _ = n.tasksPerNode * (n.workLimit + 2) := (Nat.mul_add ..).symm
    _ ≤ Walk.maxTasks n := Nat.mul_le_mul_right _ hnode

/-- With the tasks that it may do, a walk that begins at a point finds what the recursion finds. -/
theorem run_eq_explore (hn : n.tree.WellFormed) (context : Context) (start : Point) (work : Nat)
    {depth : Nat} (hdepth : n.depthNeeded start work ≤ depth) :
    Walk.run n context (Walk.maxTasks n) { tasks := [start.task], work } =
      (n.explore context depth start {} { work }).map (Carried.walk {} []) := by
  have hcomes := doesAs_explore hn context depth start {} { work } hdepth []
  have hstart : (Carried.walk {} [start.task] { work } : Walk) = { tasks := [start.task], work } := rfl
  rw [hstart] at hcomes
  cases hfound : n.explore context depth start {} { work } with
  | ok found =>
    rw [hfound] at hcomes
    obtain ⟨hle, hwithin, steps, hsteps, hrun⟩ := hcomes
    have hend : ∀ fuel, Walk.run n context fuel (Carried.walk {} [] found) =
        .ok (Carried.walk {} [] found) := fun fuel => by
      cases fuel <;> rfl
    have hsteps : n.tasksPerNode * work + steps ≤ n.tasksPerNode * found.work + start.tasks n.tree :=
      hsteps
    have hwithin : found.work ≤ max work n.workLimit := hwithin
    have henough : steps ≤ n.tasksPerNode * n.workLimit + start.tasks n.tree := by
      have hwork : n.tasksPerNode * found.work ≤ n.tasksPerNode * (work + n.workLimit) :=
        Nat.mul_le_mul_left n.tasksPerNode (by omega)
      rw [Nat.mul_add] at hwork
      omega
    obtain ⟨fuel, hfuel⟩ := Nat.exists_eq_add_of_le' (Nat.le_trans henough (cost_le_maxTasks n start))
    rw [hfuel, hrun, hend]
    rfl
  | error e =>
    rw [hfound] at hcomes
    rw [hcomes.2, hcomes.1]
    rfl

/-- A walk with its stack of tasks is a recursive search: from every point of a tree it finds the same
routes in the same order as the recursion, which hands path, guard and look-aheads to each branch, and
it enters as many nodes. When it is over, nothing is left of what its branches carried. If there is too
much work, both fail. -/
theorem walks_by_recursion {pattern : String} {flags : Flags} {budget : Budget}
    {properties : PropertyLookup} (h : Pattern.parse pattern flags budget properties = .ok n.tree)
    (context : Context) (start : Point) (work : Nat) {depth : Nat}
    (hdepth : n.depthNeeded start work ≤ depth) :
    n.routes context start.task work =
        (n.explore context depth start {} { work }).map (fun f => (f.routes.reverse, f.work)) ∧
      ∀ found, n.explore context depth start {} { work } = .ok found →
        Walk.run n context (Walk.maxTasks n) { tasks := [start.task], work } =
          .ok { path := [], guard := {}, spawned := [], tasks := [],
                routes := found.routes, work := found.work } := by
  have hrun := run_eq_explore (Pattern.wellFormed_parse h) context start work hdepth
  refine ⟨?_, fun found hfound => ?_⟩
  · rw [routes, hrun]
    cases n.explore context depth start {} { work } <;> rfl
  · rw [hrun, hfound]
    rfl

/-- What the recursion finds from the root of a tree, within 64 nodes entered. -/
def exploreTree (t : Tree) : Except Bailout Findings :=
  let n : Nfa := { (default : Nfa) with tree := t, maxStates := 1 }
  n.explore default (n.depthNeeded (.before t.root) 0) (.before t.root) {} { work := 0 }

set_option maxRecDepth 100000 in
/-- The look-ahead and the guard of an alternative are gone when the next one is explored. -/
theorem walks_by_recursion_alternatives : ∃ (n : Nfa) (found : Findings) (depth : Nat),
    Pattern.parse "(?:(?=a)b|(?:\\b|c)d)*" {} {} Property.standard = .ok n.tree ∧
    n.depthNeeded (.before n.tree.root) 0 ≤ depth ∧
    found.routes.reverse.map (fun r => (r.goal, r.guard, r.spawned)) =
      [(.consume 5, {}, [4]), (.consume 12, { nextWord := true }, []), (.consume 9, {}, []),
        (.done, {}, [])] ∧
    n.routes default (.enter n.tree.root) 0 = .ok (found.routes.reverse, 10) ∧
    Walk.run n default (Walk.maxTasks n) { tasks := [.enter n.tree.root], work := 0 } =
      .ok { path := [], guard := {}, spawned := [], tasks := [], routes := found.routes, work := 10 } := by
  obtain ⟨t, ht⟩ := exists_ok (x := Pattern.parse "(?:(?=a)b|(?:\\b|c)d)*" {} {} Property.standard)
    (by decide +kernel)
  obtain ⟨found, hfound⟩ := exists_ok (x := exploreTree t)
    (of_toOption (P := fun t => (exploreTree t).isOk = true) (by decide +kernel) ht)
  obtain ⟨hwork, hroutes⟩ := of_toOption (P := fun t => ∀ f ∈ (exploreTree t).toOption, f.work = 10 ∧
    f.routes.reverse.map (fun r => (r.goal, r.guard, r.spawned)) =
      [(.consume 5, {}, [4]), (.consume 12, { nextWord := true }, []), (.consume 9, {}, []),
        (.done, {}, [])]) (by decide +kernel) ht found (toOption_eq_some_iff.mpr hfound)
  let n : Nfa := { (default : Nfa) with tree := t, maxStates := 1 }
  obtain ⟨heq, hrun⟩ := walks_by_recursion (n := n) ht default (.before t.root) 0 (Nat.le_refl _)
  have hfound : n.explore default (n.depthNeeded (.before t.root) 0) (.before t.root) {} { work := 0 } =
    .ok found := hfound
  have hrun := hrun found hfound
  rw [hfound] at heq
  rw [hwork] at hrun
  exact ⟨n, found, _, ht, Nat.le_refl _, hroutes, hwork ▸ heq, hrun⟩

end PatternAutomata.Nfa
