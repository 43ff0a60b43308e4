import PatternAutomata.Nfa.Product
import PatternAutomata.Proofs.Nfa.Steps

/-!
# The work done before a walk

The walks of one state share a limit on the nodes entered. What was entered before a walk can only
make it fail: a walk that ends finds what it finds if it begins with no work done. So the routes of
a task do not depend on the other routes they are combined with.
-/

namespace PatternAutomata.Nfa

variable {n : Nfa} {context : Context}

/-- If the route consumes a class, it is a class of the tree. -/
def Route.Ends (n : Nfa) (r : Route) : Prop :=
  ∀ id, r.goal = .consume id → ∃ set, n.tree.kind id = .charClass set

theorem Route.ends_done {r : Route} (h : r.goal = .done) : r.Ends n := fun id hid => by
  rw [h] at hid
  cases hid

namespace Walk

/-- The walk with `k` more nodes entered elsewhere. -/
def later (k : Nat) (w : Walk) : Walk := { w with work := w.work + k }

variable {k : Nat} {w w' : Walk} {id : NodeId}

section Later

@[simp] theorem emit_later (goal : Goal) : (w.later k).emit n goal = (w.emit n goal).later k := by
  unfold emit
  simp only
  rw [apply_ite (later k)]
  rfl

@[simp] theorem isEmptyIteration_later (group : NodeId) :
    (w.later k).isEmptyIteration n group = w.isEmptyIteration n group := rfl

@[simp] theorem leave_later : (w.later k).leave n id = (w.leave n id).later k := by
  unfold leave
  split
  · rfl
  · split
    · split
      · rfl
      · simp only
        rw [isEmptyIteration_later]
        split
        · rfl
        · split <;> rfl
    · rfl
    · rfl

@[simp] theorem enterAssertion_later (a : Assertion) :
    (w.later k).enterAssertion n context id a = (w.enterAssertion n context id a).later k := by
  cases a with
  | atStart =>
    unfold enterAssertion
    simp only
    rw [apply_ite (later k)]
    rfl
  | _ => rfl

@[simp] theorem enterLook_later (l : LookAround) :
    (w.later k).enterLook n context id l = (w.enterLook n context id l).later k := by
  unfold enterLook
  split
  · rfl
  · rw [apply_ite (later k)]
    rfl

@[simp] theorem enter_later : (w.later k).enter n context id = (w.enter n context id).later k := by
  unfold enter
  split <;> first | rfl | simp only [emit_later, enterAssertion_later, enterLook_later]

end Later

/-- A step that may be made with more work done does the same with less. -/
theorem step_later {task : Task} (h : step n context task (w.later k) = .ok w') :
    ∃ w1, step n context task w = .ok w1 ∧ w' = w1.later k := by
  cases task with
  | enter id =>
    simp only [step] at h ⊢
    split at h
    · rename_i hwork
      have hcounted : ({ w.later k with work := (w.later k).work + 1 } : Walk) =
          later k { w with work := w.work + 1 } := by
        unfold later
        simp only [Nat.add_right_comm]
      rw [hcounted, enter_later] at h
      cases h
      exact ⟨_, if_pos (Nat.lt_of_le_of_lt (Nat.le_add_right ..) hwork), rfl⟩
    · cases h
  | leave id =>
    cases h
    exact ⟨_, rfl, leave_later⟩
  | _ =>
    cases h
    exact ⟨_, rfl, rfl⟩

theorem run_later {fuel : Nat} (h : run n context fuel (w.later k) = .ok w') :
    ∃ w1, run n context fuel w = .ok w1 ∧ w' = w1.later k := by
  induction fuel generalizing w with
  | zero =>
    unfold run at h ⊢
    rw [show (w.later k).tasks = w.tasks from rfl] at h
    split at h
    · cases h
      exact ⟨w, if_pos ‹_›, rfl⟩
    · cases h
  | succ fuel ih =>
    unfold run at h ⊢
    rw [show (w.later k).tasks = w.tasks from rfl] at h
    cases htasks : w.tasks with
    | nil =>
      simp only [htasks] at h ⊢
      cases h
      exact ⟨w, rfl, rfl⟩
    | cons task tasks =>
      simp only [htasks] at h ⊢
      obtain ⟨next, hnext, h⟩ := bind_eq_ok.mp h
      obtain ⟨w1, h1, rfl⟩ := step_later (w := { w with tasks }) hnext
      obtain ⟨w2, h2, rfl⟩ := ih h
      exact ⟨w2, bind_eq_ok.mpr ⟨w1, h1, h2⟩, rfl⟩

/-! ## Goals -/

theorem routes_leave : (w.leave n id).routes = w.routes := by
  unfold leave
  split
  · rfl
  · split
    · split
      · rfl
      · simp only
        split
        · rfl
        · split <;> rfl
    · rfl
    · rfl

theorem routes_enterAssertion (a : Assertion) :
    (w.enterAssertion n context id a).routes = w.routes := by
  cases a with
  | atStart =>
    unfold enterAssertion
    simp only
    split <;> rfl
  | _ => rfl

theorem routes_enterLook (l : LookAround) : (w.enterLook n context id l).routes = w.routes := by
  unfold enterLook
  split
  · rfl
  · split <;> rfl

theorem ends_emit {goal : Goal} (hgoal : ∀ id, goal = .consume id →
    ∃ set, n.tree.kind id = .charClass set) (h : ∀ r ∈ w.routes, r.Ends n) :
    ∀ r ∈ (w.emit n goal).routes, r.Ends n := by
  unfold emit
  simp only
  split
  · exact h
  · exact List.forall_mem_cons.mpr ⟨hgoal, h⟩

theorem ends_enter (h : ∀ r ∈ w.routes, r.Ends n) :
    ∀ r ∈ (w.enter n context id).routes, r.Ends n := by
  unfold enter
  split
  · rename_i set hk
    refine ends_emit (fun id' hid' => ?_) h
    cases hid'
    exact ⟨set, hk⟩
  · exact ends_emit nofun h
  · rwa [routes_enterAssertion]
  · rwa [routes_enterLook]
  · exact h
  · exact h
  · exact h

theorem ends_step (h : ∀ r ∈ w.routes, r.Ends n) (hstep : Step n context w w') :
    ∀ r ∈ w'.routes, r.Ends n := by
  obtain ⟨-, hw⟩ := hstep
  rename_i task tasks
  cases task with
  | enter id =>
    simp only [step] at hw
    split at hw
    · cases hw
      exact ends_enter (w := { w with tasks, work := w.work + 1 }) h
    · cases hw
  | leave id =>
    cases hw
    exact (routes_leave (w := { w with tasks })).symm ▸ h
  | _ =>
    cases hw
    exact h

theorem ends_run {fuel : Nat} (hw : run n context fuel w = .ok w') (h : ∀ r ∈ w.routes, r.Ends n) :
    ∀ r ∈ w'.routes, r.Ends n :=
  steps_induction ends_step h (steps_of_run hw)

end Walk

variable {task : Task} {routes : List Route} {work work' : Nat}

/-- The routes of a task are the ones found with no work done before. -/
theorem routes_unworked (h : n.routes context task work = .ok (routes, work')) :
    ∃ k, n.routes context task 0 = .ok (routes, k) := by
  obtain ⟨w, hw, h⟩ := bind_eq_ok.mp h
  cases h
  have hstart : ({ tasks := [task], work } : Walk) =
      Walk.later work { tasks := [task], work := 0 } := by
    unfold Walk.later
    simp only [Nat.zero_add]
  rw [hstart] at hw
  obtain ⟨w1, h1, rfl⟩ := Walk.run_later hw
  exact ⟨w1.work, bind_eq_ok.mpr ⟨w1, h1, rfl⟩⟩

theorem ends_of_routes (h : n.routes context task work = .ok (routes, work')) :
    ∀ r ∈ routes, r.Ends n := by
  obtain ⟨w, hw, h⟩ := bind_eq_ok.mp h
  cases h
  exact fun r hr => Walk.ends_run hw nofun r (List.mem_reverse.mp hr)

theorem ends_of_mainRoutes {s : State} (h : n.mainRoutes s = .ok (routes, work)) :
    ∀ r ∈ routes, r.Ends n := by
  unfold mainRoutes at h
  split at h
  · cases h
    exact List.forall_mem_singleton.mpr (Route.ends_done rfl)
  · exact ends_of_routes h
  · exact ends_of_routes h

end PatternAutomata.Nfa
