import PatternAutomata.Proofs.Nfa.Raising
import PatternAutomata.Proofs.Nfa.Visiting
import PatternAutomata.Proofs.Nfa.WorkDone
import PatternAutomata.Proofs.Tree.Order

/-!
# The branches of a walk

A walk keeps its path, and its tasks are a stack that says how the path changes from one task to the
next. A stop is a task about a node with the path on which the walk does it. Doing the task makes
other stops due, and a branch is a sequence of stops each of which has made the next one due. How a
branch can go on is said once, by `Moves`: down to the first term of an alternative, on to the next
term, up to the group around it, or back to a group that loops.

What the walk has found, and which look-aheads it has met, is told by the stops that it comes to.
-/

namespace PatternAutomata

/-- An iteration of the quantifier `group` that could be skipped begins with the node `first`. -/
def Tree.Opens (t : Tree) (group first : NodeId) : Prop :=
  ∃ g a, t.kind group = .group g ∧ t.canSkip g = true ∧ a ∈ g.alternatives ∧
    (t.terms a)[0]? = some first

namespace Nfa

/-- A task about a node, with the path on which it is done. -/
structure Stop where
  task : Task
  path : List PathElement

/-- The stop is about `a` or a node below. -/
def Stop.Under (t : Tree) (a : NodeId) (s : Stop) : Prop :=
  match s.task with
  | .enter id | .leave id | .finishAlternative id => t.Under a id
  | _ => False

/-- The task after an alternative of a group. -/
def Task.after (t : Tree) (group : NodeId) : Task :=
  if (t.group? group).any Group.isLoop then .enter group else .leave group

/-- How a branch goes from one stop to the next. -/
inductive Moves (t : Tree) : Stop → Stop → Prop
  /-- An assertion, or a look-around, holds. -/
  | pass {id : NodeId} {p : List PathElement} (h : t.kind id ≠ .matchFound) :
    Moves t ⟨.enter id, p⟩ ⟨.leave id, p⟩
  | first {id a first : NodeId} {g : Group} {p : List PathElement} (hg : t.kind id = .group g)
    (ha : a ∈ g.alternatives) (hfirst : (t.terms a)[0]? = some first) :
    Moves t ⟨.enter id, p⟩ ⟨.enter first, .enter id :: p⟩
  | skip {id : NodeId} {g : Group} {p : List PathElement} (hg : t.kind id = .group g) :
    Moves t ⟨.enter id, p⟩ ⟨.leave id, .pass id :: p⟩
  | empty {id : NodeId} {g : Group} {p : List PathElement} (hg : t.kind id = .group g)
    (hquantifier : g.isQuantifier = false) :
    Moves t ⟨.enter id, p⟩ ⟨.finishAlternative id, .enter id :: p⟩
  | found {id : NodeId} {p : List PathElement} (hparent : t.parent id = none) :
    Moves t ⟨.leave id, p⟩ ⟨.enter t.matchFound, p⟩
  | held {id look : NodeId} {l : LookAround} {p : List PathElement}
    (hparent : t.parent id = some look) (hl : t.kind look = .look l) :
    Moves t ⟨.leave id, p⟩ ⟨.enter l.matchFound, p⟩
  /-- An iteration goes on after its first term only if it could not be skipped, or began before the
  walk. -/
  | next {id a group next k : Nat} {p : List PathElement} (hc : (t.terms a)[k]? = some id)
    (hgroup : t.parent a = some group) (hnext : (t.terms a)[k + 1]? = some next)
    (hlive : t.Opens group id → .enter group ∉ p) :
    Moves t ⟨.leave id, p⟩ ⟨.enter next, p⟩
  | last {id a group k : Nat} {p : List PathElement} (hc : (t.terms a)[k]? = some id)
    (hgroup : t.parent a = some group) (hlive : t.Opens group id → .enter group ∉ p) :
    Moves t ⟨.leave id, p⟩ ⟨.after t group, .exit group :: p⟩
  | finish {group : NodeId} {p : List PathElement} :
    Moves t ⟨.finishAlternative group, p⟩ ⟨.after t group, .exit group :: p⟩

namespace Walk

/-- The path after the tasks, if each is done by itself. -/
def pathAfter : List PathElement → List Task → List PathElement
  | path, [] => path
  | path, .pushPath e :: tasks => pathAfter (e :: path) tasks
  | path, .popPath :: tasks => pathAfter path.tail tasks
  | path, _ :: tasks => pathAfter path tasks

/-- The stops that are due when the tasks are pending. -/
def stops : List PathElement → List Task → List Stop
  | _, [] => []
  | path, .pushPath e :: tasks => stops (e :: path) tasks
  | path, .popPath :: tasks => stops path.tail tasks
  | path, .enter id :: tasks => ⟨.enter id, path⟩ :: stops path tasks
  | path, .leave id :: tasks => ⟨.leave id, path⟩ :: stops path tasks
  | path, .finishAlternative id :: tasks => ⟨.finishAlternative id, path⟩ :: stops path tasks
  | path, _ :: tasks => stops path tasks

theorem pathAfter_append (path : List PathElement) (ts us : List Task) :
    pathAfter path (ts ++ us) = pathAfter (pathAfter path ts) us := by
  induction ts generalizing path with
  | nil => rfl
  | cons task ts ih => cases task <;> exact ih _

theorem stops_append (path : List PathElement) (ts us : List Task) :
    stops path (ts ++ us) = stops path ts ++ stops (pathAfter path ts) us := by
  induction ts generalizing path with
  | nil => rfl
  | cons task ts ih =>
    cases task with
    | enter id | leave id | finishAlternative id => exact congrArg (_ :: ·) (ih _)
    | _ => exact ih _

/-! ## What doing a task adds -/

/-- What doing a task about a node changes: the tasks that it adds lead to stops that a branch can go
to next, and all that it finds or meets is the node. -/
structure Adds (t : Tree) (task : Task) (w w' : Walk) : Prop where
  path : w'.path = w.path
  tasks : ∃ added, w'.tasks = added ++ w.tasks ∧ pathAfter w.path added = w.path ∧
    ∀ s ∈ stops w.path added, Moves t ⟨task, w.path⟩ s
  spawned : ∀ id ∈ w'.spawned, id ∈ w.spawned ∨ task = .enter id
  routes : ∀ r ∈ w'.routes, r ∈ w.routes ∨
    (∀ id, r.goal = .consume id → task = .enter id) ∧ ∀ id ∈ r.spawned, id ∈ w.spawned

variable {n : Nfa} {context : Context} {task : Task} {w w' : Walk} {id : NodeId}

theorem Adds.refl {t : Tree} (w : Walk) : Adds t task w w :=
  ⟨rfl, ⟨[], rfl, rfl, nofun⟩, fun _ h => .inl h, fun _ h => .inl h⟩

theorem Adds.andThen {t : Tree} {added : List Task} (hpath : pathAfter w.path added = w.path)
    (hmoves : ∀ s ∈ stops w.path added, Moves t ⟨task, w.path⟩ s) : Adds t task w (w.andThen added) :=
  ⟨rfl, ⟨added, rfl, hpath, hmoves⟩, fun _ h => .inl h, fun _ h => .inl h⟩

/-- The only task is about a node to which a branch can go on along the same path. -/
theorem adds_one {t : Tree} {next : Task} (hpath : pathAfter w.path [next] = w.path)
    (hstops : stops w.path [next] = [⟨next, w.path⟩]) (h : Moves t ⟨task, w.path⟩ ⟨next, w.path⟩) :
    Adds t task w (w.andThen [next]) :=
  .andThen hpath fun s hs => by
    rw [hstops, List.mem_singleton] at hs
    exact hs ▸ h

theorem adds_emit {t : Tree} (goal : Goal) (h : ∀ id, goal = .consume id → task = .enter id) :
    Adds t task w (w.emit n goal) := by
  unfold emit
  simp only
  split
  · exact .refl w
  · refine ⟨rfl, ⟨[], rfl, rfl, nofun⟩, fun _ h => .inl h, fun r hr => ?_⟩
    rcases List.mem_cons.mp hr with rfl | hr
    · exact .inr ⟨h, fun id hid => List.mem_reverse.mp hid⟩
    · exact .inl hr

theorem stops_after (t : Tree) (group : NodeId) (path : List PathElement) :
    stops path [.pushPath (.exit group), Task.after t group, .popPath] =
      [⟨Task.after t group, .exit group :: path⟩] ∧
    pathAfter path [.pushPath (.exit group), Task.after t group, .popPath] = path := by
  unfold Task.after
  split <;> exact ⟨rfl, rfl⟩

theorem adds_finishAlternative {group : NodeId}
    (h : Moves n.tree ⟨task, w.path⟩ ⟨.after n.tree group, .exit group :: w.path⟩) :
    Adds n.tree task w (w.finishAlternative n group) := by
  obtain ⟨hstops, hpath⟩ := stops_after n.tree group w.path
  refine .andThen hpath fun s hs => ?_
  obtain rfl := List.mem_singleton.mp (hstops ▸ hs)
  exact h

/-- The rule on empty iterations asks whether the quantifier is on the path. -/
theorem isEmptyIteration_iff {group first : NodeId} (hfirst : n.tree.Opens group first) :
    w.isEmptyIteration n group = true ↔ .enter group ∈ w.path := by
  obtain ⟨g, a, hg, hskip, -⟩ := hfirst
  unfold isEmptyIteration
  rw [Tree.group?_eq_some.mpr hg, ← List.contains_iff_mem]
  exact ⟨fun h => (Bool.and_eq_true_iff.mp h).2, fun h => Bool.and_eq_true_iff.mpr ⟨hskip, h⟩⟩

theorem adds_leave (hn : n.tree.WellFormed) : Adds n.tree (.leave id) w (w.leave n id) := by
  unfold Walk.leave
  split
  · rename_i hparent
    exact adds_one rfl rfl (.found hparent)
  · rename_i a hparent
    split
    · rename_i terms hterms
      split
      · exact .refl w
      · rename_i group hgroup
        have hmem := hn.child_of_parent a id hparent
        rw [hterms] at hmem
        obtain ⟨k, hk⟩ := List.mem_iff_getElem?.mp hmem
        obtain rfl : n.tree.terms a = terms := by rw [Tree.terms, hterms]
        simp only [hn.index_term a k id hk]
        split
        · exact .refl w
        · rename_i hdead
          have hlive : n.tree.Opens group id → .enter group ∉ w.path := by
            rintro ⟨g, a', hg, hskip, ha', hfirst⟩ hentered
            have hindex := hn.index_term a' 0 id hfirst
            rw [hn.index_term a k id hk] at hindex
            have hempty := (isEmptyIteration_iff ⟨g, a', hg, hskip, ha', hfirst⟩).mpr hentered
            simp [hindex, hempty] at hdead
          split
          · exact adds_one rfl rfl (.next hk hgroup ‹_› hlive)
          · exact adds_finishAlternative (.last hk hgroup hlive)
    · rename_i l hl
      exact adds_one rfl rfl (.held hparent hl)
    · exact .refl w

theorem adds_enterAlternatives {g : Group} (hg : n.tree.kind id = .group g) (as : List NodeId)
    (has : ∀ a ∈ as, a ∈ g.alternatives) :
    pathAfter w.path (as.flatMap (enterAlternative n id g.isQuantifier)) = w.path ∧
      ∀ s ∈ stops w.path (as.flatMap (enterAlternative n id g.isQuantifier)),
        Moves n.tree ⟨.enter id, w.path⟩ s := by
  induction as with
  | nil => exact ⟨rfl, nofun⟩
  | cons a as ih =>
    obtain ⟨ha, has⟩ := List.forall_mem_cons.mp has
    obtain ⟨hpath, hmoves⟩ := ih has
    have halternative : pathAfter w.path (enterAlternative n id g.isQuantifier a) = w.path ∧
        ∀ s ∈ stops w.path (enterAlternative n id g.isQuantifier a),
          Moves n.tree ⟨.enter id, w.path⟩ s := by
      unfold enterAlternative
      split
      · rename_i first rest hterms
        exact ⟨rfl, List.forall_mem_singleton.mpr (.first hg ha (by rw [hterms]; rfl))⟩
      · split
        · exact ⟨rfl, List.forall_mem_singleton.mpr (.skip hg)⟩
        · rename_i hquantifier
          exact ⟨rfl, List.forall_mem_singleton.mpr (.empty hg (by simpa using hquantifier))⟩
    rw [List.flatMap_cons, pathAfter_append, stops_append, halternative.1]
    refine ⟨hpath, fun s hs => ?_⟩
    rcases List.mem_append.mp hs with hs | hs
    · exact halternative.2 s hs
    · exact hmoves s hs

theorem adds_enterAssertion {a : Assertion} (ha : n.tree.kind id = .assertion a) :
    Adds n.tree (.enter id) w (w.enterAssertion n context id a) := by
  have hpass : Moves n.tree ⟨.enter id, w.path⟩ ⟨.leave id, w.path⟩ := .pass (by simp [ha])
  cases a with
  | atStart =>
    unfold enterAssertion
    simp only
    split
    · exact adds_one rfl rfl hpass
    · exact .refl w
  | _ =>
    exact ⟨rfl, ⟨_, rfl, rfl, List.forall_mem_singleton.mpr hpass⟩, fun _ h => .inl h,
      fun _ h => .inl h⟩

theorem adds_enterLook {l : LookAround} (hl : n.tree.kind id = .look l) :
    Adds n.tree (.enter id) w (w.enterLook n context id l) := by
  have hpass : Moves n.tree ⟨.enter id, w.path⟩ ⟨.leave id, w.path⟩ := .pass (by simp [hl])
  unfold enterLook
  split
  · refine ⟨rfl, ⟨_, rfl, rfl, List.forall_mem_singleton.mpr hpass⟩, fun id' hid' => ?_,
      fun _ h => .inl h⟩
    rcases List.mem_cons.mp hid' with rfl | hid'
    · exact .inr rfl
    · exact .inl hid'
  · split
    · exact .refl w
    · exact adds_one rfl rfl hpass

theorem adds_enter : Adds n.tree (.enter id) w (w.enter n context id) := by
  unfold Walk.enter
  split
  · exact adds_emit _ fun id hid => by cases hid; rfl
  · exact adds_emit _ nofun
  · exact adds_enterAssertion ‹_›
  · exact adds_enterLook ‹_›
  · rename_i g hg
    obtain ⟨hpath, hmoves⟩ := adds_enterAlternatives (w := w) hg g.alternatives fun _ h => h
    exact .andThen hpath hmoves
  · exact .refl w
  · exact .refl w

/-- Doing a task that is not about a node only changes the path, the guard or the look-aheads met. -/
structure Sets (task : Task) (w w' : Walk) : Prop where
  tasks : w'.tasks = w.tasks
  spawned : ∀ id ∈ w'.spawned, id ∈ w.spawned
  routes : w'.routes = w.routes
  stops : ∀ tasks, stops w.path (task :: tasks) = stops w'.path tasks
  pathAfter : ∀ tasks, pathAfter w.path (task :: tasks) = pathAfter w'.path tasks

/-- The task is about a node. -/
def AboutNode (task : Task) : Prop :=
  ∀ path tasks, stops path (task :: tasks) = ⟨task, path⟩ :: stops path tasks ∧
    pathAfter path (task :: tasks) = pathAfter path tasks

theorem step_cases (hn : n.tree.WellFormed) (h : step n context task w = .ok w') :
    AboutNode task ∧ Adds n.tree task w w' ∨ Sets task w w' := by
  cases task with
  | enter id =>
    simp only [step] at h
    split at h
    · cases h
      obtain ⟨hpath, htasks, hspawned, hroutes⟩ :=
        @adds_enter n context { w with work := w.work + 1 } id
      exact .inl ⟨fun _ _ => ⟨rfl, rfl⟩, hpath, htasks, hspawned, hroutes⟩
    · cases h
  | leave id =>
    cases h
    exact .inl ⟨fun _ _ => ⟨rfl, rfl⟩, adds_leave hn⟩
  | finishAlternative group =>
    cases h
    exact .inl ⟨fun _ _ => ⟨rfl, rfl⟩, adds_finishAlternative .finish⟩
  | popSpawned =>
    cases h
    exact .inr ⟨rfl, fun _ hid => List.mem_of_mem_tail hid, rfl, fun _ => rfl, fun _ => rfl⟩
  | _ =>
    cases h
    exact .inr ⟨rfl, fun _ hid => hid, rfl, fun _ => rfl, fun _ => rfl⟩

/-- A step of a walk that may enter as many nodes as it likes. -/
def FreeStep (n : Nfa) (context : Context) (w w' : Walk) : Prop :=
  ∃ k, Step (n.withMaxStates k) context w w'

/-- The walk comes about when the task is done, whatever that takes. -/
def Reached (n : Nfa) (context : Context) (start : Task) (w : Walk) : Prop :=
  Relation.ReflTransGen (FreeStep n context) { tasks := [start], work := 0 } w

end Walk

/-! ## Branches -/

/-- Doing the task of the first stop adds tasks, and these make the second one due. -/
def Stop.LeadsTo (n : Nfa) (context : Context) (s s' : Stop) : Prop :=
  ∃ k w w' added, w.path = s.path ∧ Walk.step (n.withMaxStates k) context s.task w = .ok w' ∧
    w'.tasks = added ++ w.tasks ∧ s' ∈ Walk.stops w'.path added

/-- A walk from the task `start` comes to a stop by way of others, the last one first. -/
inductive Branch (n : Nfa) (context : Context) (start : Task) : Stop → List Stop → Prop
  | start : Branch n context start ⟨start, []⟩ []
  | next {s s' : Stop} {b : List Stop} (h : Branch n context start s b)
    (hs : s.LeadsTo n context s') : Branch n context start s' (s :: b)

variable {n : Nfa} {context : Context} {start : Task} {s s' : Stop} {w w' : Walk}

theorem Stop.LeadsTo.moves (hn : n.tree.WellFormed) (h : s.LeadsTo n context s') :
    Moves n.tree s s' := by
  obtain ⟨k, w, w', added, hpath, hstep, htasks, hs'⟩ := h
  rcases Walk.step_cases (n := n.withMaxStates k) hn hstep with ⟨-, hadds⟩ | hsets
  · obtain ⟨added', htasks', -, hmoves⟩ := hadds.tasks
    obtain rfl : added = added' := List.append_cancel_right (htasks.symm.trans htasks')
    rw [hadds.path] at hs'
    have hmove := hmoves s' hs'
    rwa [hpath] at hmove
  · obtain rfl : added = [] := List.append_left_eq_self.mp (htasks.symm.trans hsets.tasks)
    cases hs'

/-- What holds of all stops that come about holds of those that are due in a walk, of those at which
the walk has met look-aheads, and of those at which it has found its routes. -/
structure Walk.Along (B : Stop → Prop) (w : Walk) : Prop where
  stops : ∀ s ∈ Walk.stops w.path w.tasks, B s
  spawned : ∀ id ∈ w.spawned, ∃ p, B ⟨.enter id, p⟩
  routes : ∀ r ∈ w.routes, (∀ id, r.goal = .consume id → ∃ p, B ⟨.enter id, p⟩) ∧
    ∀ id ∈ r.spawned, ∃ p, B ⟨.enter id, p⟩

theorem Walk.Along.step {B : Stop → Prop} (hn : n.tree.WellFormed)
    (hB : ∀ s s', B s → s.LeadsTo n context s' → B s') (h : w.Along B)
    (hstep : Walk.FreeStep n context w w') : w'.Along B := by
  obtain ⟨k, htasks, hw⟩ := hstep
  rename_i task tasks
  have hstops := h.stops
  rw [htasks] at hstops
  rcases Walk.step_cases (n := n.withMaxStates k) hn hw with ⟨habout, hadds⟩ | hsets
  · obtain ⟨added, hadded, hpath, -⟩ := hadds.tasks
    rw [(habout w.path tasks).1] at hstops
    obtain ⟨hhere, hrest⟩ := List.forall_mem_cons.mp hstops
    have hnode : ∀ id, task = .enter id → ∃ p, B ⟨.enter id, p⟩ := fun id hid =>
      ⟨w.path, hid ▸ hhere⟩
    refine ⟨fun s hs => ?_, fun id hid => ?_, fun r hr => ?_⟩
    · rw [hadded, hadds.path, Walk.stops_append, hpath] at hs
      rcases List.mem_append.mp hs with hs | hs
      · exact hB _ s hhere ⟨k, { w with tasks }, w', added, rfl, hw, hadded, hadds.path ▸ hs⟩
      · exact hrest s hs
    · exact (hadds.spawned id hid).elim (h.spawned id) (hnode id)
    · rcases hadds.routes r hr with hr | ⟨hgoal, hspawned⟩
      · exact h.routes r hr
      · exact ⟨fun id hid => hnode id (hgoal id hid), fun id hid => h.spawned id (hspawned id hid)⟩
  · refine ⟨fun s hs => hstops s ?_, fun id hid => h.spawned id (hsets.spawned id hid),
      fun r hr => h.routes r (hsets.routes ▸ hr)⟩
    rw [hsets.tasks] at hs
    rw [hsets.stops]
    exact hs

theorem Walk.Along.of_reached {B : Stop → Prop} (hn : n.tree.WellFormed)
    (hB : ∀ s s', B s → s.LeadsTo n context s' → B s') (hstart : ∀ s ∈ Walk.stops [] [start], B s)
    (hw : Walk.Reached n context start w) : w.Along B := by
  induction hw with
  | refl => exact ⟨hstart, nofun, nofun⟩
  | tail _ hstep ih => exact ih.step hn hB hstep

theorem mem_stops_singleton (h : s ∈ Walk.stops [] [start]) : s = ⟨start, []⟩ := by
  cases start with
  | enter id | leave id | finishAlternative id => exact List.mem_singleton.mp h
  | _ => cases h

/-- The routes of a task are those of a walk that the task leads to. -/
theorem exists_reached {work : Nat} {found : List Route × Nat}
    (h : n.routes context start work = .ok found) :
    ∃ w, Walk.Reached n context start w ∧ found.1 = w.routes.reverse := by
  obtain ⟨routes, work'⟩ := found
  obtain ⟨k, h⟩ := routes_unworked h
  obtain ⟨w, hw, h⟩ := bind_eq_ok.mp h
  cases h
  have hreached : Walk.Reached n context start w :=
    Relation.ReflTransGen.mono (fun _ _ hstep => ⟨n.maxStates, hstep⟩) _ _ (Walk.steps_of_run hw)
  exact ⟨w, hreached, rfl⟩

/-- Every stop that is due in a walk is at the end of a branch. -/
theorem exists_branch (hn : n.tree.WellFormed) (hw : Walk.Reached n context start w)
    (hs : s ∈ Walk.stops w.path w.tasks) :
    ∃ b, Branch n context start s b := by
  refine (Walk.Along.of_reached (B := fun s => ∃ b, Branch n context start s b) hn ?_ ?_
    hw).stops s hs
  · rintro s s' ⟨b, hb⟩ hs'
    exact ⟨s :: b, hb.next hs'⟩
  · intro s hs
    exact ⟨[], mem_stops_singleton hs ▸ .start⟩

end Nfa

end PatternAutomata
