import PatternAutomata.Nfa.Walk
import PatternAutomata.Proofs.Backtrack.Continue
import PatternAutomata.Proofs.CodePoints
import PatternAutomata.Proofs.Results

/-!
# Walks follow the ways of a backtracking matcher

A walk stands still at one position and finds every class that can be consumed next. Each goal ends
a trail: the groups entered and left and the look-aheads met, in their order, and the conditions on
the next character. `Task.ways` says what is left to match when a task is due. Doing the task splits
these ways up among the goals that are found, in the same order.
-/

namespace PatternAutomata

/-- The next character, or the end of the text, is as the guard wants it. -/
def Guard.holds (g : Guard) (x : Subject) (position : Nat) : Bool :=
  match x.after? position with
  | some c => g.allowed.contains c.toNat
  | none => g.allowsEnd

namespace Nfa

/-! ## Trails -/

/-- What happens on the way to a goal. -/
inductive TrailStep where
  | path (e : PathElement)
  | look (id : NodeId)

/-- The way to a goal, the last step first. -/
structure Trail where
  steps : List TrailStep := []
  guard : Guard := {}

namespace Trail

def path (d : Trail) : List PathElement :=
  d.steps.filterMap fun
    | .path e => some e
    | .look _ => none

/-- The look-aheads met, the last one first. -/
def spawned (d : Trail) : List NodeId :=
  d.steps.filterMap fun
    | .path _ => none
    | .look id => some id

def push (d : Trail) (step : TrailStep) : Trail := { d with steps := step :: d.steps }

def under (d : Trail) (g : Guard) : Trail := { d with guard := d.guard.union g }

/-- Whether the group was entered on the way. -/
def entered (d : Trail) (group : NodeId) : Bool := d.path.contains (.enter group)

end Trail

/-- A trail that has led to a goal. -/
structure Ending where
  goal : Goal
  trail : Trail

namespace Ending

def route (n : Nfa) (e : Ending) : Route :=
  { goal := e.goal
    guard := e.trail.guard
    boundaries := Walk.boundaries n.tree e.trail.path
    spawned := e.trail.spawned.reverse }

/-- Adds the route of an ending to those found so far, the last one first, unless the goal was
reached before under the same conditions. -/
def addTo (n : Nfa) (routes : List Route) (e : Ending) : List Route :=
  if routes.any fun r =>
      r.goal = e.goal && r.guard = e.trail.guard && r.spawned = e.trail.spawned.reverse then routes
  else e.route n :: routes

end Ending

/-- The look-aheads on a trail are nodes of the tree. -/
def Trail.Fits (t : Tree) (d : Trail) : Prop :=
  ∀ id ∈ d.spawned, t.Standing id ∧ ∃ l, t.kind id = .look l ∧ l.direction = .ahead

def Goal.Fits (t : Tree) : Goal → Prop
  | .consume id => t.Standing id ∧ ∃ set, t.kind id = .charClass set
  | .done => True

structure Ending.Fits (t : Tree) (e : Ending) : Prop where
  trail : e.trail.Fits t
  goal : e.goal.Fits t

section Ways

variable {σ : Type} (n : Nfa) (x : Subject) (r : Recorder σ)

def PathElement.mark (t : Tree) (r : Recorder σ) (e : PathElement) (s : Spot σ) : Spot σ :=
  match e with
  | .pass _ => s
  | .enter id =>
    match t.group? id with
    | some g => g.enter r s
    | none => s
  | .exit id =>
    match t.group? id with
    | some g => g.exit r s
    | none => s

/-- The ways to take a step; none takes a character. -/
def TrailStep.ways (step : TrailStep) (s : Spot σ) : List (Spot σ) :=
  match step with
  | .path e => [e.mark n.tree r s]
  | .look id =>
    match n.tree.kind id with
    | .look l => n.tree.lookWays x r id l (n.tree.ways x r) s
    | _ => []

/-- The ways to take all steps. -/
def reachBy : List TrailStep → Spot σ → List (Spot σ)
  | [], s => [s]
  | step :: steps, s => (reachBy steps s).flatMap (step.ways n x r)

/-- The ways along a trail, if the next character is as the trail wants it. -/
def Trail.reach (d : Trail) (s : Spot σ) : List (Spot σ) :=
  if d.guard.holds x s.position then reachBy n x r d.steps s else []

/-- The ways from a goal on. -/
def Goal.ways (goal : Goal) (s : Spot σ) : List (Spot σ) :=
  match goal with
  | .consume id =>
    (n.tree.ways x r id s).flatMap fun s' => n.tree.goOn x r (fun _ => false) s.position id s'
  | .done => [s]

/-- The ways along a trail and from its goal on. -/
def Ending.ways (e : Ending) (s : Spot σ) : List (Spot σ) :=
  (e.trail.reach n x r s).flatMap (e.goal.ways n x r)

/-- The ways from a task on, after a trail. -/
def Task.ways (task : Task) (d : Trail) (s : Spot σ) : List (Spot σ) :=
  (d.reach n x r s).flatMap fun s =>
    match task with
    | .enter id => (n.tree.ways x r id s).flatMap (n.tree.goOn x r d.entered s.position id)
    | .leave id => n.tree.goOn x r d.entered s.position id s
    | .finishAlternative id =>
      match n.tree.kind id with
      | .group g => n.tree.finish x r d.entered s.position id g s
      | _ => []
    | _ => []

end Ways

/-! ## What a walk observes -/

/-- The context tells what the pattern asks about the text before a position, and the pattern asks
for nothing that automata do not offer. -/
structure Observes (n : Nfa) (x : Subject) (position : Nat) (context : Context) : Prop where
  multiline : x.multiline = n.multiline
  atStart : ∀ id, n.tree.InPattern id → n.tree.kind id = .assertion .atStart →
    (context.atStart || n.multiline && Walk.holds context n.lookBehinds.lineTerminator) =
      x.holds .atStart position
  word : ∀ id, n.tree.InPattern id →
    n.tree.kind id = .assertion .wordBoundary ∨ n.tree.kind id = .assertion .notWordBoundary →
    Walk.holds context n.lookBehinds.word = Subject.isWord (x.before? position)
  ahead : ∀ id l, n.tree.InPattern id → n.tree.kind id = .look l → l.direction = .ahead →
    l.negated = false
  behind : ∀ id l, n.tree.InPattern id → n.tree.kind id = .look l → l.direction = .behind →
    ∃ classes, LookBehindTable.literalBody? n.tree l.body = some classes ∧
      Walk.holds context (n.lookBehinds.entry? id) = x.endsWith position classes
  le_length : position ≤ x.text.length

/-! ## Guards -/

end Nfa

namespace Guard

variable {g h : Guard} {x : Subject} {position : Nat}

@[simp] theorem holds_empty : ({} : Guard).holds x position = true := by
  unfold holds
  split
  · rename_i c _
    rw [contains_allowed _ (toNat_le_maxCodePoint c)]
    rfl
  · rfl

theorem holds_union : (g.union h).holds x position = (g.holds x position && h.holds x position) := by
  unfold holds
  split
  · rename_i c _
    simp only [contains_allowed _ (toNat_le_maxCodePoint c), union]
    grind
  · simp only [allowsEnd, union, Bool.not_or]

end Guard

namespace Nfa

/-! ## What doing tasks amounts to -/

section Does

variable {σ : Type} {n : Nfa} {x : Subject} {r : Recorder σ} {position bound : Nat}
  {context : Context} {d : Trail} {ts us : List Task} {v w : Spot σ → List (Spot σ)}

/-- The walk along a trail. -/
def walkAt (d : Trail) (tasks : List Task) (routes : List Route) (work : Nat) : Walk :=
  { path := d.path, guard := d.guard, spawned := d.spawned, tasks, routes, work }

/-- A walk that has done the tasks `ts` has found the ways that `v` lists, and is where it was
before. -/
def Does (n : Nfa) (x : Subject) (r : Recorder σ) (position : Nat) (context : Context) (bound : Nat)
    (d : Trail) (ts : List Task) (v : Spot σ → List (Spot σ)) : Prop :=
  ∀ fuel ≤ bound, ∀ rest routes work done,
    Walk.run n context fuel (walkAt d (ts ++ rest) routes work) = .ok done →
    ∃ fuel' ≤ fuel, ∃ (endings : List Ending) (work' : Nat),
      Walk.run n context fuel' (walkAt d rest (endings.foldl (Ending.addTo n) routes) work') =
        .ok done ∧
      (d.Fits n.tree → ∀ e ∈ endings, e.Fits n.tree) ∧
      ∀ s : Spot σ, s.position = position → v s = endings.flatMap (Ending.ways n x r · s)

/-- A task takes a step. -/
theorem run_cons {task : Task} {tasks : List Task} {routes : List Route} {work fuel : Nat}
    {done : Walk} (h : Walk.run n context fuel (walkAt d (task :: tasks) routes work) = .ok done) :
    ∃ fuel', fuel = fuel' + 1 ∧ ∃ next,
      Walk.step n context task (walkAt d tasks routes work) = .ok next ∧
      Walk.run n context fuel' next = .ok done := by
  cases fuel with
  | zero => cases h
  | succ fuel =>
    obtain ⟨next, hnext, h⟩ := bind_eq_ok.mp h
    exact ⟨fuel, rfl, next, hnext, h⟩

theorem Does.congr (h : Does n x r position context bound d ts v)
    (hv : ∀ s, s.position = position → w s = v s) : Does n x r position context bound d ts w := by
  intro fuel hfuel rest routes work done hrun
  obtain ⟨fuel', hle, endings, work', hrun', hfits, hways⟩ :=
    h fuel hfuel rest routes work done hrun
  exact ⟨fuel', hle, endings, work', hrun', hfits, fun s hs => (hv s hs).trans (hways s hs)⟩

theorem does_nil : Does n x r position context bound d [] fun _ => [] :=
  fun fuel _ _ _ work _ hrun => ⟨fuel, Nat.le_refl _, [], work, hrun, by simp, fun _ _ => rfl⟩

theorem Does.append (h : Does n x r position context bound d ts v)
    (h' : Does n x r position context bound d us w) :
    Does n x r position context bound d (ts ++ us) fun s => v s ++ w s := by
  intro fuel hfuel rest routes work done hrun
  rw [List.append_assoc] at hrun
  obtain ⟨fuel1, hle1, endings1, work1, hrun1, hfits1, hways1⟩ :=
    h fuel hfuel _ routes work done hrun
  obtain ⟨fuel2, hle2, endings2, work2, hrun2, hfits2, hways2⟩ :=
    h' fuel1 (Nat.le_trans hle1 hfuel) rest _ work1 done hrun1
  refine ⟨fuel2, Nat.le_trans hle2 hle1, endings1 ++ endings2, work2, ?_, fun hd e he => ?_,
    fun s hs => ?_⟩
  · rw [List.foldl_append]
    exact hrun2
  · rcases List.mem_append.mp he with he | he
    · exact hfits1 hd e he
    · exact hfits2 hd e he
  · rw [List.flatMap_append, ← hways1 s hs, ← hways2 s hs]

theorem Does.flatMap {α : Type} {f : α → List Task} {u : α → Spot σ → List (Spot σ)} {as : List α}
    (h : ∀ a ∈ as, Does n x r position context bound d (f a) (u a)) :
    Does n x r position context bound d (as.flatMap f) fun s => as.flatMap (u · s) := by
  induction as with
  | nil => exact does_nil
  | cons a as ih =>
    exact (h a (by simp)).append (ih fun b hb => h b (by simp [hb]))

/-- A task can be done on another trail, between one that leads there and one that leads back. -/
theorem Does.onTrail {d' : Trail} {first task : Task} {more : List Task} (last : Task)
    (h : Does n x r position context bound d' [task] v)
    (hthere : ∀ rest routes work next,
      Walk.step n context first (walkAt d (more ++ rest) routes work) = .ok next →
        ∃ work', next = walkAt d' (task :: last :: rest) routes work')
    (hback : ∀ rest routes work, Walk.step n context last (walkAt d' rest routes work) =
      .ok (walkAt d rest routes work))
    (hfits : d.Fits n.tree → d'.Fits n.tree) :
    Does n x r position context (bound + 1) d (first :: more) v := by
  intro fuel hfuel rest routes work done hrun
  obtain ⟨fuel1, rfl, next, hnext, hrun⟩ := run_cons hrun
  obtain ⟨work1, rfl⟩ := hthere rest routes work next hnext
  obtain ⟨fuel2, hle, endings, work2, hrun', hends, hways⟩ :=
    h fuel1 (Nat.le_of_succ_le_succ hfuel) (last :: rest) routes work1 done hrun
  obtain ⟨fuel3, rfl, next, hnext, hrun'⟩ := run_cons hrun'
  obtain rfl := Except.ok.inj ((hback _ _ _).symm.trans hnext)
  exact ⟨fuel3, by omega, endings, work2, hrun', fun hd => hends (hfits hd), hways⟩

/-- A task that is done with a longer path leaves the path as it was. -/
theorem Does.onPath {e : PathElement} {task : Task}
    (h : Does n x r position context bound (d.push (.path e)) [task] v) :
    Does n x r position context bound d [.pushPath e, task, .popPath] v := by
  have hon : Does n x r position context (bound + 1) d [.pushPath e, task, .popPath] v := by
    refine h.onTrail .popPath (fun rest routes work next hnext => ?_) (fun _ _ _ => rfl) id
    cases hnext
    exact ⟨work, rfl⟩
  exact fun fuel hfuel => hon fuel (Nat.le_succ_of_le hfuel)

end Does

/-! ## Reaching the end of a trail -/

section Reach

variable {σ : Type} {n : Nfa} {x : Subject} {r : Recorder σ} {d : Trail} {s : Spot σ}

theorem TrailStep.ways_eq (step : TrailStep) (s : Spot σ) :
    step.ways n x r s = [] ∨ ∃ s', step.ways n x r s = [s'] ∧ s'.position = s.position := by
  cases step with
  | path e =>
    refine .inr ⟨_, rfl, ?_⟩
    unfold PathElement.mark
    split
    · rfl
    · split
      · exact Tree.position_enter
      · rfl
    · split
      · exact Tree.position_exit
      · rfl
  | look id =>
    simp only [ways]
    split
    · unfold Tree.lookWays
      split
      · split <;> split <;> simp
      · split
        · split <;> simp
        · simp
    · simp

/-- There is at most one way along a trail, and none takes a character. -/
theorem Trail.reach_eq (d : Trail) (s : Spot σ) :
    d.reach n x r s = [] ∨ ∃ s', d.reach n x r s = [s'] ∧ s'.position = s.position := by
  have hsteps : ∀ steps : List TrailStep, reachBy n x r steps s = [] ∨
      ∃ s', reachBy n x r steps s = [s'] ∧ s'.position = s.position := by
    intro steps
    induction steps with
    | nil => exact .inr ⟨s, rfl, rfl⟩
    | cons step steps ih =>
      rw [reachBy]
      rcases ih with h | ⟨s1, h, h1⟩
      · exact .inl (by rw [h]; rfl)
      · rw [h, List.flatMap_singleton]
        rcases step.ways_eq s1 with h2 | ⟨s2, h2, h3⟩
        · exact .inl h2
        · exact .inr ⟨s2, h2, h3.trans h1⟩
  unfold reach
  split
  · exact hsteps d.steps
  · exact .inl rfl

theorem Trail.reach_push (step : TrailStep) :
    (d.push step).reach n x r s = (d.reach n x r s).flatMap (step.ways n x r) := by
  unfold reach push
  split <;> rfl

theorem Trail.reach_under (g : Guard) :
    (d.under g).reach n x r s = if g.holds x s.position then d.reach n x r s else [] := by
  unfold reach under
  rw [Guard.holds_union]
  cases d.guard.holds x s.position <;> cases g.holds x s.position <;> rfl

theorem Trail.entered_push_enter (id group : NodeId) :
    (d.push (.path (.enter id))).entered group = (group == id || d.entered group) := by
  simp only [entered, path, push, List.filterMap_cons, List.contains_cons]
  congr 1
  rw [Bool.eq_iff_iff]
  simp

@[simp] theorem Trail.entered_push_exit (id : NodeId) :
    (d.push (.path (.exit id))).entered = d.entered := by
  funext group
  simp [entered, path, push]

@[simp] theorem Trail.entered_push_pass (id : NodeId) :
    (d.push (.path (.pass id))).entered = d.entered := by
  funext group
  simp [entered, path, push]

@[simp] theorem Trail.entered_push_look (id : NodeId) : (d.push (.look id)).entered = d.entered :=
  rfl

@[simp] theorem Trail.entered_under (g : Guard) : (d.under g).entered = d.entered := rfl

end Reach

/-! ## Each kind of task -/

/-- A task that a walk in the pattern can meet. -/
def Task.Fits (t : Tree) : Task → Prop
  | .enter id | .leave id => t.Standing id
  | .finishAlternative id => t.Standing id ∧ ∃ g, t.kind id = .group g
  | _ => False

section Tasks

variable {σ : Type} {n : Nfa} {x : Subject} {r : Recorder σ} {position bound : Nat}
  {context : Context} {d : Trail} {us : List Task} {v : Spot σ → List (Spot σ)} {id : NodeId}

/-- A task that only leads to other tasks. -/
theorem does_of_tasks {task : Task} (us : List Task)
    (hstep : ∀ rest routes work next,
      Walk.step n context task (walkAt d rest routes work) = .ok next →
      ∃ work', next = walkAt d (us ++ rest) routes work')
    (h : Does n x r position context bound d us v) :
    Does n x r position context (bound + 1) d [task] v := by
  intro fuel hfuel rest routes work done hrun
  obtain ⟨fuel1, rfl, next, hnext, hrun⟩ := run_cons hrun
  obtain ⟨work', rfl⟩ := hstep rest routes work next hnext
  obtain ⟨fuel2, hle, hdone⟩ := h fuel1 (Nat.le_of_succ_le_succ hfuel) rest routes work' done hrun
  exact ⟨fuel2, Nat.le_succ_of_le hle, hdone⟩

/-- Entering a node takes work. -/
theorem step_enter {rest : List Task} {routes : List Route} {work : Nat} {next : Walk}
    (h : Walk.step n context (.enter id) (walkAt d rest routes work) = .ok next) :
    next = (walkAt d rest routes (work + 1)).enter n context id := by
  unfold Walk.step at h
  simp only at h
  split at h
  · cases h
    rfl
  · cases h

theorem emit_walkAt (goal : Goal) (tasks : List Task) (routes : List Route) (work : Nat) :
    (walkAt d tasks routes work).emit n goal =
      walkAt d tasks (Ending.addTo n routes ⟨goal, d⟩) work := by
  unfold Ending.addTo
  by_cases h : (routes.any fun r =>
      r.goal = goal && r.guard = d.guard && r.spawned = d.spawned.reverse) = true
  · rw [if_pos h]
    exact if_pos h
  · rw [if_neg h]
    exact if_neg h

/-- Reaching a goal ends the trail. -/
theorem does_goal {goal : Goal} (hgoal : goal.Fits n.tree) (hstep : ∀ rest routes work,
      (walkAt d rest routes work).enter n context id = (walkAt d rest routes work).emit n goal) :
    Does n x r position context bound d [.enter id] fun s =>
      (d.reach n x r s).flatMap (goal.ways n x r) := by
  intro fuel hfuel rest routes work done hrun
  obtain ⟨fuel1, rfl, next, hnext, hrun⟩ := run_cons hrun
  rw [step_enter hnext, hstep, emit_walkAt] at hrun
  refine ⟨fuel1, Nat.le_succ _, [⟨goal, d⟩], work + 1, hrun, fun hd e he => ?_, fun s _ => ?_⟩
  · obtain rfl := List.mem_singleton.mp he
    exact ⟨hd, hgoal⟩
  · rw [List.flatMap_singleton]
    rfl

theorem does_matchFound (hk : n.tree.kind id = .matchFound) :
    Does n x r position context bound d [.enter id] (d.reach n x r) := by
  refine (does_goal (show Goal.done.Fits n.tree from trivial) fun rest routes work => ?_).congr
    fun s _ => ?_
  · unfold Walk.enter
    rw [hk]
  · exact (List.flatMap_singleton' _).symm

end Tasks

end Nfa

end PatternAutomata
