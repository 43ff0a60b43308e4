import PatternAutomata.Nfa.Product
import PatternAutomata.Proofs.Backtrack.Journal
import PatternAutomata.Proofs.Captures
import PatternAutomata.Proofs.Nfa.Routes

/-!
# The preferred endings

A task has a journal at a position if there is a way to match what is left. The preferred way
begins with the first ending that has a journal, and this ending is among the routes that a walk
keeps: what a walk drops has a journal only if an earlier route has one. An ending has a journal if
all look-aheads on its trail have one and its goal goes on; then the journal consists of what is
written on the trail and of what its goal writes later.
-/

namespace PatternAutomata.Nfa

variable {n : Nfa} {x : Subject} {p : Nat} {id : NodeId}

section Definitions

variable (n : Nfa) (x : Subject)

/-- The journal of the preferred way from a task on. -/
def Task.journal? (task : Task) (p : Nat) : Option Journal :=
  ((task.ways n x Journal.recorder {} ⟨p, {}⟩).head?).map Spot.memory

/-- What is written on a trail. -/
def Trail.journal? (d : Trail) (p : Nat) : Option Journal :=
  ((d.reach n x Journal.recorder ⟨p, {}⟩).head?).map Spot.memory

/-- What is written after a goal has been reached. -/
def Goal.journal? (goal : Goal) (p : Nat) : Option Journal :=
  ((goal.ways n x Journal.recorder ⟨p, {}⟩).head?).map Spot.memory

/-- The journal of the preferred way that begins with an ending. -/
def Ending.journal? (e : Ending) (p : Nat) : Option Journal :=
  ((e.ways n x Journal.recorder ⟨p, {}⟩).head?).map Spot.memory

/-- The tasks that run the look-aheads on a trail, in their order. -/
def Ending.spawnedTasks (e : Ending) : List Task := e.trail.spawned.reverse.map (runTask n)

end Definitions

/-- What look-aheads write that are run from tasks on. -/
def WrittenBy (n : Nfa) (x : Subject) (p : Nat) (tasks : List Task) (ws : List Write) : Prop :=
  ∃ task ∈ tasks, ∃ j, task.journal? n x p = some j ∧ (ws = j.own ∨ ws ∈ j.inner)

/-! ## Goals -/

@[simp] theorem Trail.reach_empty {σ : Type} {r : Recorder σ} (s : Spot σ) :
    ({} : Trail).reach n x r s = [s] := by
  unfold reach
  rw [if_pos Guard.holds_empty]
  rfl

theorem Task.journal?_leave :
    (Task.leave id).journal? n x p = ((n.tree.goOn x Journal.recorder (fun _ => false) p id
      ⟨p, {}⟩).head?).map Spot.memory := by
  unfold journal? ways
  rw [Trail.reach_empty, List.flatMap_singleton]
  rfl

@[simp] theorem Goal.journal?_done : Goal.done.journal? n x p = some {} := rfl

theorem Goal.journal?_consume (hn : n.tree.WellFormed) {set : CodePointSet}
    (hk : n.tree.kind id = .charClass set) : (Goal.consume id).journal? n x p =
      if (x.after? p).any fun c => set.contains c.toNat then
        (Task.leave id).journal? n x (p + 1) else none := by
  unfold journal? ways
  simp only
  rw [Tree.ways_charClass hn hk]
  split
  · rw [List.flatMap_singleton, Tree.goOn_of_lt (p + 1) (Nat.lt_succ_self p),
      Task.journal?_leave]
  · rfl

/-- What was written on the way to a goal does not matter. -/
theorem Goal.ways_frame (hn : n.tree.WellFormed) {goal : Goal} (hgoal : goal.Fits n.tree)
    (before : Journal) : ((goal.ways n x Journal.recorder ⟨p, before⟩).head?).map Spot.memory =
      (goal.journal? n x p).map (Journal.after · before) := by
  cases goal with
  | done => rfl
  | consume id =>
    obtain ⟨-, set, hk⟩ := hgoal
    unfold journal? ways
    simp only
    rw [Tree.ways_charClass hn hk, Tree.ways_charClass hn hk]
    split
    · rw [List.flatMap_singleton, List.flatMap_singleton, Tree.goOn_frame hn, List.head?_map,
        Option.map_map, Option.map_map]
      rfl
    · rfl

/-! ## Trails -/

theorem journal?_runTask (hn : n.tree.WellFormed) {l : LookAround}
    (hl : n.tree.kind id = .look l) : (runTask n id).journal? n x p =
      ((n.tree.ways x Journal.recorder l.body ⟨p, {}⟩).head?).map Spot.memory := by
  unfold runTask
  rw [hl]
  unfold Task.journal? Task.ways
  rw [Trail.reach_empty, List.flatMap_singleton]
  have hbody : n.tree.goOn x Journal.recorder ({} : Trail).entered p l.body = fun s => [s] :=
    funext fun s => Tree.goOn_body hn hl
  simp only [hbody, List.flatMap_singleton']

/-- A look-ahead on a trail holds if the task that runs it has a journal, which it adds. -/
theorem look_ways (hn : n.tree.WellFormed) {l : LookAround} (hl : n.tree.kind id = .look l)
    (hdirection : l.direction = .ahead) (hnegated : l.negated = false) (m : Journal) :
    (TrailStep.look id).ways n x Journal.recorder ⟨p, m⟩ =
      match (runTask n id).journal? n x p with
      | some j => [⟨p, ⟨m.own, j.own :: (j.inner ++ m.inner), j.log ++ m.log⟩⟩]
      | none => [] := by
  rw [journal?_runTask hn hl]
  unfold TrailStep.ways
  simp only [hl, Tree.lookWays, hdirection, hnegated]
  rw [Tree.ways_frame hn, List.head?_map]
  cases (n.tree.ways x Journal.recorder l.body ⟨p, {}⟩).head? with
  | none => rfl
  | some s =>
    simp only [Option.map_some, Journal.recorder, Journal.after, List.length_append,
      Nat.add_sub_cancel, List.take_left, Bool.false_eq_true, ite_false]

/-- Boundaries tell what a list of writes at one position leaves behind. -/
structure Tells (b : Boundaries) (p : Nat) (ws : List Write) : Prop where
  position : ∀ w ∈ ws, w.position = p
  entry : ∀ i e, b.entry i p e = (lastWrite i ws).elim e Write.value

namespace Tells

variable {b b' : Boundaries} {ws : List Write}

theorem empty : Tells .empty p [] := ⟨by simp, fun i e => Boundaries.entry_empty i p e⟩

/-- One more operation. -/
theorem cons (h : Tells b p ws) {op : CaptureOp}
    (hop : ∀ i e, b'.entry i p e = op.entry i p (b.entry i p e)) :
    Tells b' p (⟨op, p⟩ :: ws) := by
  refine ⟨fun w hw => ?_, fun i e => ?_⟩
  · rcases List.mem_cons.mp hw with rfl | hw
    · rfl
    · exact h.position w hw
  · rw [hop, h.entry, lastWrite_cons]
    unfold CaptureOp.entry Write.touches
    split <;> rfl

theorem enter (h : Tells b p ws) (g : Group) {j : Journal} (hj : j.own = ws) :
    Tells (match g.number? with
      | some k => (if g.isQuantifier then b.clear g.innerStart g.innerEnd else b).updateStart k
      | none => if g.isQuantifier then b.clear g.innerStart g.innerEnd else b) p
      (g.enter Journal.recorder ⟨p, j⟩).memory.own ∧
      (g.enter Journal.recorder ⟨p, j⟩).memory.inner = j.inner := by
  subst hj
  have hreset := h.cons fun i e =>
    Boundaries.entry_clear b g.innerStart g.innerEnd i p e
  unfold Group.enter
  cases g.isQuantifier with
  | true =>
    cases g.number? with
    | none => exact ⟨hreset, rfl⟩
    | some k => exact ⟨hreset.cons fun i e => Boundaries.entry_updateStart _ k i p e, rfl⟩
  | false =>
    cases g.number? with
    | none => exact ⟨h, rfl⟩
    | some k => exact ⟨h.cons fun i e => Boundaries.entry_updateStart _ k i p e, rfl⟩

theorem exit (h : Tells b p ws) (g : Group) {j : Journal} (hj : j.own = ws) :
    Tells (match g.number? with
      | some k => b.updateEnd k
      | none => b) p (g.exit Journal.recorder ⟨p, j⟩).memory.own ∧
      (g.exit Journal.recorder ⟨p, j⟩).memory.inner = j.inner := by
  subst hj
  unfold Group.exit
  cases g.number? with
  | none => exact ⟨h, rfl⟩
  | some k => exact ⟨h.cons fun i e => Boundaries.entry_updateEnd _ k i p e, rfl⟩

end Tells

/-- What is written on a trail: the writes of the match itself are told by the boundaries of the
path, the others come from the look-aheads met. -/
structure Trail.Wrote (n : Nfa) (x : Subject) (p : Nat) (d : Trail) (j : Journal) : Prop where
  tells : Tells (Walk.boundaries n.tree d.path) p j.own
  inner : ∀ ws, ws ∈ j.inner ↔ n.WrittenBy x p (d.spawned.map (runTask n)) ws

theorem Trail.Wrote.path {d : Trail} {j : Journal} (h : d.Wrote n x p j) (e : PathElement) :
    (d.push (.path e)).Wrote n x p (e.mark n.tree Journal.recorder ⟨p, j⟩).memory := by
  have hpath : (d.push (.path e)).path = e :: d.path := rfl
  have hboundaries : Walk.boundaries n.tree (e :: d.path) =
      Walk.stepBoundaries n.tree e (Walk.boundaries n.tree d.path) := rfl
  suffices hmark : Tells (Walk.stepBoundaries n.tree e (Walk.boundaries n.tree d.path)) p
      (e.mark n.tree Journal.recorder ⟨p, j⟩).memory.own ∧
      (e.mark n.tree Journal.recorder ⟨p, j⟩).memory.inner = j.inner by
    refine ⟨by rw [hpath, hboundaries]; exact hmark.1, fun ws => ?_⟩
    rw [hmark.2]
    exact h.inner ws
  cases e with
  | pass id => exact ⟨h.tells, rfl⟩
  | enter id =>
    cases hg : n.tree.group? id with
    | none =>
      simp only [Walk.stepBoundaries, PathElement.mark, hg]
      exact ⟨h.tells, trivial⟩
    | some g =>
      simp only [Walk.stepBoundaries, PathElement.mark, hg]
      exact h.tells.enter g rfl
  | exit id =>
    cases hg : n.tree.group? id with
    | none =>
      simp only [Walk.stepBoundaries, PathElement.mark, hg, Option.bind_none]
      exact ⟨h.tells, trivial⟩
    | some g =>
      simp only [Walk.stepBoundaries, PathElement.mark, hg, Option.bind_some]
      exact h.tells.exit g rfl

theorem writtenBy_cons {task : Task} {tasks : List Task} {ws : List Write} {j : Journal}
    (hj : task.journal? n x p = some j) : n.WrittenBy x p (task :: tasks) ws ↔
      (ws = j.own ∨ ws ∈ j.inner) ∨ n.WrittenBy x p tasks ws := by
  unfold WrittenBy
  simp only [List.mem_cons, or_and_right, exists_or, exists_eq_left, hj, Option.some.injEq,
    exists_eq_left']

theorem Trail.Wrote.look {d : Trail} {j j' : Journal} (h : d.Wrote n x p j)
    (hj : (runTask n id).journal? n x p = some j') : (d.push (.look id)).Wrote n x p
      ⟨j.own, j'.own :: (j'.inner ++ j.inner), j'.log ++ j.log⟩ := by
  refine ⟨h.tells, fun ws => ?_⟩
  have hspawned : (d.push (.look id)).spawned = id :: d.spawned := rfl
  rw [hspawned, List.map_cons, writtenBy_cons hj, ← h.inner ws, List.mem_cons, List.mem_append,
    or_assoc]

/-- A trail can be taken if the next character is as it wants it and all look-aheads on it hold. -/
theorem Trail.journal?_spec (hn : n.tree.WellFormed)
    (hahead : ∀ id l, n.tree.InPattern id → n.tree.kind id = .look l → l.direction = .ahead →
      l.negated = false) {d : Trail} (hd : d.Fits n.tree) :
    (∃ j, d.journal? n x p = some j ∧ d.reach n x Journal.recorder ⟨p, {}⟩ = [⟨p, j⟩] ∧
      d.Wrote n x p j ∧ d.guard.holds x p = true ∧
      ∀ id ∈ d.spawned, (runTask n id).journal? n x p ≠ none) ∨
    d.journal? n x p = none ∧ d.reach n x Journal.recorder ⟨p, {}⟩ = [] ∧
      ¬(d.guard.holds x p = true ∧ ∀ id ∈ d.spawned, (runTask n id).journal? n x p ≠ none) := by
  obtain ⟨steps, guard⟩ := d
  by_cases hguard : guard.holds x p = true
  · have hreach : ∀ steps, (⟨steps, guard⟩ : Trail).reach n x Journal.recorder ⟨p, {}⟩ =
        reachBy n x Journal.recorder steps ⟨p, {}⟩ := fun steps => if_pos hguard
    unfold journal?
    simp only [hreach, hguard, true_and]
    induction steps with
    | nil => exact .inl ⟨{}, rfl, rfl, ⟨.empty, fun ws => by simp [WrittenBy, spawned]⟩, by simp [spawned]⟩
    | cons step steps ih =>
      cases step with
      | path e =>
        rcases ih hd with ⟨j, -, hj, hwrote, hall⟩ | ⟨-, hj, hnot⟩
        · have hmark : (e.mark n.tree Journal.recorder ⟨p, j⟩) =
              ⟨p, (e.mark n.tree Journal.recorder ⟨p, j⟩).memory⟩ := by
            rcases (TrailStep.path e).ways_eq (n := n) (x := x) (r := Journal.recorder) ⟨p, j⟩ with
              h | ⟨s', h, hposition⟩
            · cases h
            · cases h
              exact congr (congrArg Spot.mk hposition) rfl
          refine .inl ⟨_, ?_, ?_, hwrote.path e, hall⟩
          · rw [reachBy, hj]
            rfl
          · rw [reachBy, hj, List.flatMap_singleton, ← hmark]
            rfl
        · exact .inr ⟨by rw [reachBy, hj]; rfl, by rw [reachBy, hj]; rfl, hnot⟩
      | look id =>
        obtain ⟨⟨hid, l, hl, hdirection⟩, hd⟩ := List.forall_mem_cons.mp hd
        have hways := look_ways (x := x) (p := p) hn hl hdirection (hahead id l hid.inPattern hl hdirection)
        have hspawned : (⟨.look id :: steps, guard⟩ : Trail).spawned =
          id :: (⟨steps, guard⟩ : Trail).spawned := rfl
        simp only [hspawned, List.forall_mem_cons]
        rcases ih hd with ⟨j, -, hj, hwrote, hall⟩ | ⟨-, hj, hnot⟩
        · rw [reachBy, hj, List.flatMap_singleton, hways]
          cases hrun : (runTask n id).journal? n x p with
          | none => exact .inr ⟨rfl, rfl, fun h => h.1 rfl⟩
          | some j' => exact .inl ⟨_, rfl, rfl, hwrote.look hrun, by simp, hall⟩
        · refine .inr ⟨by rw [reachBy, hj]; rfl, by rw [reachBy, hj]; rfl, fun h => hnot h.2⟩
  · have hreach : (⟨steps, guard⟩ : Trail).reach n x Journal.recorder ⟨p, {}⟩ = [] :=
      if_neg hguard
    refine .inr ⟨?_, hreach, fun h => hguard h.1⟩
    unfold journal?
    rw [hreach]
    rfl

/-! ## Endings -/

/-- The next character is as the route wants it, and its goal goes on. -/
def Route.Alive (n : Nfa) (x : Subject) (p : Nat) (r : Route) : Prop :=
  r.guard.holds x p = true ∧ r.goal.journal? n x p ≠ none

/-- The route is alive, and so are the look-aheads that begin to run. -/
def Route.Viable (n : Nfa) (x : Subject) (p : Nat) (r : Route) : Prop :=
  r.Alive n x p ∧ ∀ id ∈ r.spawned, (runTask n id).journal? n x p ≠ none

section Endings

variable (hn : n.tree.WellFormed)
  (hahead : ∀ id l, n.tree.InPattern id → n.tree.kind id = .look l → l.direction = .ahead →
    l.negated = false)
include hn hahead

/-- The journal of an ending puts together that of its trail and that of its goal. -/
theorem Ending.journal?_eq {e : Ending} (he : e.Fits n.tree) : e.journal? n x p =
    (e.trail.journal? n x p).bind fun j => (e.goal.journal? n x p).map (Journal.after · j) := by
  unfold journal? ways
  rcases Trail.journal?_spec (x := x) (p := p) hn hahead he.trail with ⟨j, hj, hreach, -⟩ |
    ⟨hj, hreach, -⟩
  · rw [hreach, List.flatMap_singleton, hj]
    exact Goal.ways_frame hn he.goal j
  · rw [hreach, hj]
    rfl

theorem Ending.journal?_eq_some {e : Ending} (he : e.Fits n.tree) {j : Journal}
    (h : e.journal? n x p = some j) : ∃ written later, e.trail.journal? n x p = some written ∧
      e.trail.Wrote n x p written ∧ e.goal.journal? n x p = some later ∧
      j = later.after written := by
  rw [Ending.journal?_eq hn hahead he] at h
  rcases Trail.journal?_spec (x := x) (p := p) hn hahead he.trail with ⟨written, hj, -, hwrote, -⟩ |
    ⟨hj, -⟩
  · rw [hj, Option.bind_some, Option.map_eq_some_iff] at h
    obtain ⟨later, hlater, rfl⟩ := h
    exact ⟨written, later, hj, hwrote, hlater, rfl⟩
  · rw [hj] at h
    cases h

theorem Ending.viable_iff {e : Ending} (he : e.Fits n.tree) :
    (e.route n).Viable n x p ↔ e.journal? n x p ≠ none := by
  rw [Ending.journal?_eq hn hahead he]
  unfold Route.Viable Route.Alive route
  simp only [List.mem_reverse]
  rcases Trail.journal?_spec (x := x) (p := p) hn hahead he.trail with
    ⟨j, hj, -, -, hguard, hall⟩ | ⟨hj, -, hnot⟩
  · simp only [hj, Option.bind_some, ne_eq, Option.map_eq_none_iff]
    exact ⟨fun h => h.1.2, fun h => ⟨⟨hguard, h⟩, hall⟩⟩
  · rw [hj, Option.bind_none]
    exact ⟨fun h => absurd ⟨h.1.1, h.2⟩ hnot, fun h => absurd rfl h⟩

/-- Dropping endings whose goal was reached before under the same conditions changes nothing. -/
theorem exists_kept (endings kept : List Ending) (hfits : ∀ e ∈ kept ++ endings, e.Fits n.tree) :
    ∃ kept' : List Ending, endings.foldl (Ending.addTo n) (kept.map (Ending.route n)).reverse =
        (kept'.map (Ending.route n)).reverse ∧ (∀ e ∈ kept', e.Fits n.tree) ∧
      kept'.findSome? (Ending.journal? n x · p) =
        (kept ++ endings).findSome? (Ending.journal? n x · p) := by
  induction endings generalizing kept with
  | nil => exact ⟨kept, rfl, by simpa using hfits, by rw [List.append_nil]⟩
  | cons e endings ih =>
    rw [List.foldl_cons, Ending.addTo]
    split
    · rename_i hany
      obtain ⟨r, hr, hsame⟩ := List.any_eq_true.mp hany
      obtain ⟨e', he', rfl⟩ := List.mem_map.mp (List.mem_reverse.mp hr)
      simp only [Bool.and_eq_true, decide_eq_true_eq] at hsame
      obtain ⟨⟨hgoal, hguard⟩, hspawned⟩ := hsame
      have hviable : (e'.route n).Viable n x p ↔ (e.route n).Viable n x p := by
        unfold Route.Viable Route.Alive
        rw [hgoal, hguard, hspawned]
        rfl
      rw [Ending.viable_iff hn hahead (hfits e' (by simp [he'])),
        Ending.viable_iff hn hahead (hfits e (by simp)), not_iff_not] at hviable
      obtain ⟨kept', hroutes, hfits', hfind⟩ := ih kept fun e'' he'' =>
        hfits e'' (by rcases List.mem_append.mp he'' with h | h <;> simp [h])
      refine ⟨kept', hroutes, hfits', hfind.trans ?_⟩
      rw [List.findSome?_append, List.findSome?_append, List.findSome?_cons]
      cases hkept : kept.findSome? (Ending.journal? n x · p) with
      | some j => rfl
      | none =>
        rw [hviable.mp (List.findSome?_eq_none_iff.mp hkept e' he')]
    · obtain ⟨kept', hroutes, hfits', hfind⟩ := ih (kept ++ [e]) (by simpa using hfits)
      refine ⟨kept', ?_, hfits', by rw [hfind]; simp⟩
      rw [← hroutes, List.map_append, List.reverse_append]
      rfl

end Endings

/-! ## The routes of a task -/

/-- The routes are those of endings among which the preferred way of the task begins with the first
that has a journal. -/
structure Offers (n : Nfa) (x : Subject) (p : Nat) (journal? : Option Journal)
    (routes : List Route) (endings : List Ending) : Prop where
  routes_eq : routes = endings.map (Ending.route n)
  fits : ∀ e ∈ endings, e.Fits n.tree
  first : journal? = endings.findSome? (Ending.journal? n x · p)

theorem offers_of_routes (hn : n.tree.WellFormed) {context : Context}
    (hx : Observes n x p context) {task : Task} (hfits : task.Fits n.tree) {work work' : Nat}
    {routes : List Route} (h : n.routes context task work = .ok (routes, work')) :
    ∃ endings, Offers n x p (task.journal? n x p) routes endings := by
  obtain ⟨endings, rfl, hends, hways⟩ := routes_ways (r := Journal.recorder) hn hx hfits h
  obtain ⟨kept, hroutes, hkept, hfind⟩ := exists_kept (x := x) (p := p) hn hx.ahead endings []
    (by simpa using hends)
  refine ⟨kept, ?_, hkept, ?_⟩
  · rw [show ([] : List Route) = (([] : List Ending).map (Ending.route n)).reverse from rfl, hroutes,
      List.reverse_reverse]
  · rw [hfind, List.nil_append]
    unfold Task.journal?
    rw [hways ⟨p, {}⟩ rfl, List.head?_flatMap, List.map_findSome?]
    rfl

end PatternAutomata.Nfa
