import PatternAutomata.Proofs.Choice
import PatternAutomata.Proofs.Nfa.Choosing

/-!
# Which combination is taken

The transitions of a state are tried in the order of the routes they combine. A combination can be
taken if every route in it is alive. So the first one that can be taken combines the preferred
endings of the main pattern, of all look-aheads that are running and of all that begin to run; and
if one of these has no way to go on, no combination can be taken.
-/

namespace PatternAutomata.Nfa

variable {n : Nfa} {x : Subject} {p : Nat} {context : Context}

/-! ## Combinations -/

theorem mem_insertAscending {a id : NodeId} {ids : List NodeId} :
    id ∈ insertAscending a ids ↔ id = a ∨ id ∈ ids := by
  induction ids with
  | nil => simp [insertAscending]
  | cons b ids ih =>
    unfold insertAscending
    split
    · exact List.mem_cons
    · split
      · rename_i heq
        subst heq
        simp
      · rw [List.mem_cons, ih, List.mem_cons, or_left_comm]

namespace Combination

variable {c c' : Combination} {r : Route}

/-- The routes go to classes of the tree, and what they have in common is known. -/
structure Fits (t : Tree) (c : Combination) : Prop where
  main : ∀ id, c.main = some id → (Goal.consume id).Fits t
  lookAheads : ∀ id ∈ c.lookAheads, (Goal.consume id).Fits t
  cls : c.cls = none ↔ c.main = none ∧ c.lookAheads = []

/-- The next character is as all routes want it, and all classes go on after it. -/
structure Alive (n : Nfa) (x : Subject) (p : Nat) (c : Combination) : Prop where
  guard : c.guard.holds x p = true
  cls : ∀ set, c.cls = some set → (x.after? p).any (fun a => set.contains a.toNat) = true
  main : ∀ id, c.main = some id → (Task.leave id).journal? n x (p + 1) ≠ none
  lookAheads : ∀ id ∈ c.lookAheads, (Task.leave id).journal? n x (p + 1) ≠ none

/-- Adds a route of a look-ahead. -/
def withLookAhead (n : Nfa) (c : Combination) (r : Route) : Combination :=
  match r.goal with
  | .consume id => { c.addRoute n r with lookAheads := insertAscending id c.lookAheads }
  | .done => c.addRoute n r

theorem addLookAhead?_eq_some (h : c.addLookAhead? n r = some c') :
    c' = c.withLookAhead n r := by
  unfold addLookAhead? at h
  unfold withLookAhead
  cases hr : r.goal <;> simp only [hr] at h ⊢ <;> split at h <;> cases h <;> rfl

theorem contains_meet (cls : Option CodePointSet) (set : CodePointSet) (a : Nat) :
    (meet cls set).contains a = true ↔
      (∀ s, cls = some s → s.contains a = true) ∧ set.contains a = true := by
  cases cls with
  | none => simp [meet]
  | some s => simp [meet]

section Goals

variable (hgoal : r.goal.Fits n.tree)
include hgoal

theorem goal_alive (hn : n.tree.WellFormed) : r.goal.journal? n x p ≠ none ↔ ∀ id, r.goal = .consume id →
    ∃ set, n.tree.kind id = .charClass set ∧
      (x.after? p).any (fun a => set.contains a.toNat) = true ∧
      (Task.leave id).journal? n x (p + 1) ≠ none := by
  cases hr : r.goal with
  | done => simp
  | consume id =>
    rw [hr] at hgoal
    obtain ⟨-, set, hk⟩ := hgoal
    rw [Goal.journal?_consume hn hk]
    constructor
    · rintro h _ ⟨⟩
      split at h
      · rename_i hany
        exact ⟨set, hk, hany, h⟩
      · exact absurd rfl h
    · intro h
      obtain ⟨set', hk', hany, hleave⟩ := h id rfl
      cases hk.symm.trans hk'
      rw [if_pos hany]
      exact hleave

/-- The classes of a combination with one more route. -/
theorem cls_addRoute : (∀ set, (c.addRoute n r).cls = some set →
      (x.after? p).any (fun a => set.contains a.toNat) = true) ↔
    (∀ set, c.cls = some set → (x.after? p).any (fun a => set.contains a.toNat) = true) ∧
      ∀ id, r.goal = .consume id → ∃ set, n.tree.kind id = .charClass set ∧
        (x.after? p).any (fun a => set.contains a.toNat) = true := by
  unfold addRoute
  cases hr : r.goal with
  | done => simp
  | consume id =>
    rw [hr] at hgoal
    obtain ⟨-, set, hk⟩ := hgoal
    simp only [hk, Option.some.injEq, forall_eq', Goal.consume.injEq, NodeKind.charClass.injEq,
      exists_eq_left']
    cases x.after? p with
    | none => simp
    | some a => exact contains_meet c.cls set a.toNat

theorem alive_withLookAhead (hn : n.tree.WellFormed) :
    (c.withLookAhead n r).Alive n x p ↔ c.Alive n x p ∧ r.Alive n x p := by
  have hguard : (c.addRoute n r).guard = c.guard.union r.guard := rfl
  have hcls := cls_addRoute (c := c) (x := x) (p := p) hgoal
  have halive := goal_alive (x := x) (p := p) hgoal hn
  unfold withLookAhead
  constructor
  · intro h
    have hguard' : (c.guard.union r.guard).holds x p = true := by
      have := h.guard
      split at this <;> exact this
    rw [Guard.holds_union, Bool.and_eq_true] at hguard'
    have hcls' := hcls.mp (by
      have := h.cls
      split at this <;> exact this)
    refine ⟨⟨hguard'.1, hcls'.1, ?_, ?_⟩, hguard'.2, halive.mpr fun id hid => ?_⟩
    · have := h.main
      split at this <;> exact this
    · intro id hid
      have := h.lookAheads id
      split at this
      · exact this (mem_insertAscending.mpr (.inr hid))
      · exact this hid
    · obtain ⟨set, hk, hany⟩ := hcls'.2 id hid
      refine ⟨set, hk, hany, ?_⟩
      have := h.lookAheads id
      rw [hid] at this
      exact this (mem_insertAscending.mpr (.inl rfl))
  · rintro ⟨hc, hr⟩
    have hguard' : (c.guard.union r.guard).holds x p = true := by
      rw [Guard.holds_union, hc.guard, hr.1]
      rfl
    have hgo := halive.mp hr.2
    have hcls' := hcls.mpr ⟨hc.cls, fun id hid =>
      (hgo id hid).imp fun set h => ⟨h.1, h.2.1⟩⟩
    split
    · rename_i id hid
      refine ⟨hguard', hcls', hc.main, fun id' hid' => ?_⟩
      rcases mem_insertAscending.mp hid' with rfl | hid'
      · obtain ⟨-, -, -, hleave⟩ := hgo id' hid
        exact hleave
      · exact hc.lookAheads id' hid'
    · exact ⟨hguard', hcls', hc.main, hc.lookAheads⟩

theorem not_alive_of_addLookAhead?_eq_none (hn : n.tree.WellFormed) (h : c.addLookAhead? n r = none) :
    ¬(c.Alive n x p ∧ r.Alive n x p) := by
  rintro ⟨hc, hr⟩
  unfold addLookAhead? at h
  simp only at h
  split at h
  · rename_i hany
    have hcls := (cls_addRoute (c := c) (x := x) (p := p) hgoal).mpr ⟨hc.cls, fun id hid =>
      ((goal_alive hgoal hn).mp hr.2 id hid).imp fun set h => ⟨h.1, h.2.1⟩⟩
    obtain ⟨set, hset, hempty⟩ := (Option.any_eq_true ..).mp hany
    have hnext := hcls set hset
    cases ha : x.after? p with
    | none =>
      rw [ha] at hnext
      cases hnext
    | some a =>
      rw [ha, Option.any_some, CodePointSet.isEmpty_iff_contains.mp hempty] at hnext
      cases hnext
  · split at h <;> cases h

theorem alive_ofMain (hn : n.tree.WellFormed) : (ofMain n r).Alive n x p ↔ r.Alive n x p := by
  have hcls := cls_addRoute (c := ⟨(ofMain n r).main, [], none, {}, {}⟩) (x := x) (p := p) hgoal
  have halive := goal_alive (x := x) (p := p) hgoal hn
  have hguard : (ofMain n r).guard = Guard.union {} r.guard := rfl
  have hmain : ∀ id, (ofMain n r).main = some id ↔ r.goal = .consume id := fun id => by
    have : (ofMain n r).main = match r.goal with
      | .consume id => some id
      | .done => none := rfl
    rw [this]
    split
    · rename_i hr
      simp [hr]
    · rename_i hr
      simp [hr]
  have hholds : (ofMain n r).guard.holds x p = r.guard.holds x p := by
    rw [hguard, Guard.holds_union, Guard.holds_empty, Bool.true_and]
  constructor
  · intro h
    refine ⟨hholds ▸ h.guard, halive.mpr fun id hid => ?_⟩
    obtain ⟨set, hk, hany⟩ := (hcls.mp h.cls).2 id hid
    exact ⟨set, hk, hany, h.main id ((hmain id).mpr hid)⟩
  · rintro ⟨hr, hgo⟩
    rw [halive] at hgo
    refine ⟨hholds.trans hr, hcls.mpr ⟨by simp, fun id hid =>
      (hgo id hid).imp fun set h => ⟨h.1, h.2.1⟩⟩, fun id hid => ?_, by
        intro id hid
        cases hid⟩
    obtain ⟨-, -, -, hleave⟩ := hgo id ((hmain id).mp hid)
    exact hleave

theorem fits_withLookAhead (hc : c.Fits n.tree) : (c.withLookAhead n r).Fits n.tree := by
  unfold withLookAhead
  cases hr : r.goal with
  | done => exact ⟨hc.main, hc.lookAheads, by simpa [addRoute, hr] using hc.cls⟩
  | consume id =>
    rw [hr] at hgoal
    obtain ⟨hid, set, hk⟩ := hgoal
    refine ⟨hc.main, fun id' hid' => ?_, ?_⟩
    · rcases mem_insertAscending.mp hid' with rfl | hid'
      · exact ⟨hid, set, hk⟩
      · exact hc.lookAheads id' hid'
    · simp only [addRoute, hr, hk]
      refine ⟨fun h => absurd h (Option.some_ne_none _), fun h => ?_⟩
      have : id ∈ insertAscending id c.lookAheads := mem_insertAscending.mpr (.inl rfl)
      rw [h.2] at this
      cases this

theorem fits_ofMain : (ofMain n r).Fits n.tree := by
  unfold ofMain addRoute
  cases hr : r.goal with
  | done => exact ⟨by simp, by simp, by simp⟩
  | consume id =>
    rw [hr] at hgoal
    refine ⟨fun id' hid' => ?_, by simp, ?_⟩
    · cases hid'
      exact hgoal
    · obtain ⟨-, set, hk⟩ := hgoal
      simp [hk]

end Goals

/-- What the routes of more endings add to a combination. -/
structure Adds (n : Nfa) (p : Nat) (c : Combination) (es : List Ending) (c' : Combination) :
    Prop where
  main : c'.main = c.main
  lookAheads : ∀ id, id ∈ c'.lookAheads ↔ id ∈ c.lookAheads ∨ ∃ e ∈ es, e.goal = .consume id
  entry : ∀ i v, c'.boundaries.entry i p v = es.foldl
    (fun v e => (Walk.boundaries n.tree e.trail.path).entry i p v) (c.boundaries.entry i p v)

theorem Adds.nil : c.Adds n p [] c := ⟨rfl, by simp, fun _ _ => rfl⟩

theorem Adds.cons {e : Ending} {es : List Ending}
    (h : (c.withLookAhead n (e.route n)).Adds n p es c') : c.Adds n p (e :: es) c' := by
  refine ⟨h.main.trans ?_, fun id => ?_, fun i v => ?_⟩
  · unfold withLookAhead
    split <;> rfl
  · rw [h.lookAheads]
    unfold withLookAhead
    have hgoal : (e.route n).goal = e.goal := rfl
    split
    · rename_i id' hid'
      rw [hgoal] at hid'
      simp only [mem_insertAscending, List.mem_cons, or_and_right, exists_or, exists_eq_left, hid',
        Goal.consume.injEq, eq_comm (a := id)]
      rw [or_assoc, or_left_comm]
    · rename_i hdone
      rw [hgoal] at hdone
      have haheads : (c.addRoute n (e.route n)).lookAheads = c.lookAheads := rfl
      simp [haheads, hdone]
  · rw [h.entry, List.foldl_cons, ← Boundaries.entry_merge]
    unfold withLookAhead
    split <;> rfl

end Combination

/-! ## Choosing for all tasks -/

/-- The endings with which the preferred ways of the tasks begin, and of those that they begin to
run. -/
inductive Picks (n : Nfa) (x : Subject) (p : Nat) : List Task → List Ending → Prop
  | nil : Picks n x p [] []
  | cons {task : Task} {todo : List Task} {e : Ending} {es : List Ending} {j : Journal}
    (hfits : e.Fits n.tree) (htask : task.journal? n x p = some j)
    (he : e.journal? n x p = some j) (rest : Picks n x p (todo ++ e.spawnedTasks n) es) :
    Picks n x p (task :: todo) (e :: es)

theorem Picks.journal?_ne_none {todo : List Task} {es : List Ending} (h : Picks n x p todo es) :
    ∀ task ∈ todo, task.journal? n x p ≠ none := by
  induction h with
  | nil => simp
  | cons _ htask _ _ ih =>
    refine List.forall_mem_cons.mpr ⟨by rw [htask]; exact Option.some_ne_none _, fun task ht => ?_⟩
    exact ih task (List.mem_append.mpr (.inl ht))

theorem fits_of_mem_spawnedTasks {e : Ending} (he : e.Fits n.tree) :
    ∀ task ∈ e.spawnedTasks n, task.Fits n.tree := by
  intro task htask
  obtain ⟨id, hid, rfl⟩ := List.mem_map.mp htask
  obtain ⟨hstanding, l, hl, -⟩ := he.trail id (List.mem_reverse.mp hid)
  unfold runTask
  rw [hl]
  exact .body hstanding hl

theorem viable_iff_spawnedTasks {e : Ending} : (e.route n).Viable n x p ↔
    (e.route n).Alive n x p ∧ ∀ task ∈ e.spawnedTasks n, task.journal? n x p ≠ none := by
  unfold Route.Viable Ending.spawnedTasks
  rw [List.forall_mem_map]
  rfl

section Judging

variable {A : Transition → Option (List Boundaries) → Prop} {routes : List Route}
  {endings : List Ending} {journal? : Option Journal}

/-- Trying a transition gives something exactly if the combination is alive, and what it gives only
depends on the conditions and on where the transition leads, up to the boundaries. -/
structure Judges (n : Nfa) (x : Subject) (p : Nat)
    (A : Transition → Option (List Boundaries) → Prop) : Prop where
  dead : ∀ c : Combination, c.Fits n.tree → ¬c.Alive n x p → ∀ r, A (c.transition n) r → r = none
  alive : ∀ c : Combination, c.Fits n.tree → c.Alive n x p → ∀ r, A (c.transition n) r → r ≠ none
  never : ∀ t : Transition, t.cls.isEmpty = true → t.acceptsEnd = false → A t none
  same : ∀ t u : Transition, t.target = u.target → t.cls = u.cls → t.acceptsEnd = u.acceptsEnd →
    A t none → A u none

/-- The first ending for which trying gives something is the preferred one, where trying gives
something exactly if the ending has a journal and a condition `C` holds. -/
theorem Offers.firstOf (h : Offers n x p journal? routes endings) {C : Prop}
    {Q : Ending → Option (List Boundaries) → Prop} {r : Option (List Boundaries)}
    (hr : FirstOf (fun e r => r = none ∧ ¬(C ∧ e.journal? n x p ≠ none) ∨
      r ≠ none ∧ (C ∧ e.journal? n x p ≠ none) ∧ Q e r) endings r) :
    r = none ∧ ¬(C ∧ journal? ≠ none) ∨
      r ≠ none ∧ C ∧ ∃ e j, e.Fits n.tree ∧ journal? = some j ∧ e.journal? n x p = some j ∧ Q e r := by
  rw [h.first]
  cases r with
  | none =>
    refine .inl ⟨rfl, fun ⟨hc, hsome⟩ => hsome (List.findSome?_eq_none_iff.mpr fun e he => ?_)⟩
    rcases FirstOf.none_iff.mp hr e he with ⟨-, hnot⟩ | ⟨hne, -⟩
    · exact Classical.byContradiction fun hsome => hnot ⟨hc, hsome⟩
    · exact absurd rfl hne
  | some bs =>
    obtain ⟨before, e, after, heq, hbefore, he⟩ := FirstOf.some_iff.mp hr
    rcases he with ⟨hnone, -⟩ | ⟨hne, ⟨hc, hsome⟩, hq⟩
    · cases hnone
    · obtain ⟨j, hj⟩ := Option.ne_none_iff_exists'.mp hsome
      refine .inr ⟨hne, hc, e, j, h.fits e (by rw [heq]; simp), ?_, hj, hq⟩
      have hnone : before.findSome? (Ending.journal? n x · p) = none :=
        List.findSome?_eq_none_iff.mpr fun e' he' => by
          rcases hbefore e' he' with ⟨-, hnot⟩ | ⟨hne, -⟩
          · exact Classical.byContradiction fun hsome => hnot ⟨hc, hsome⟩
          · exact absurd rfl hne
      rw [heq, List.findSome?_append, hnone, List.findSome?_cons, hj]
      rfl

/-! ## Transitions found -/

/-- The transitions found with one more. -/
def Found.more (ts : List Transition) (t : Transition) : List Transition :=
  (Found.add ⟨ts, 0⟩ t).transitions

theorem Found.transitions_add (f : Found) (t : Transition) :
    (f.add t).transitions = Found.more f.transitions t := by
  unfold more add
  split
  · rfl
  · split <;> rfl

/-- What is left out would not have been taken. -/
theorem Judges.firstOf_of_found (hA : Judges n x p A) (ts found : List Transition)
    {r : Option (List Boundaries)} (h : FirstOf A (ts.foldl Found.more found).reverse r) :
    FirstOf A (found.reverse ++ ts) r := by
  induction ts generalizing found with
  | nil => simpa using h
  | cons t ts ih =>
    have hrest := ih (Found.more found t) h
    unfold Found.more Found.add at hrest
    split at hrest
    · rename_i hnever
      rw [Bool.and_eq_true, Bool.not_eq_true'] at hnever
      rcases FirstOf.append_inv hrest with ⟨h1, h2⟩ | ⟨b, rfl, h1⟩
      · exact FirstOf.append_none h1 (.skip (hA.never t hnever.1 hnever.2) h2)
      · exact FirstOf.append_some h1
    · split at hrest
      · rename_i hany
        obtain ⟨u, hu, hsame⟩ := List.any_eq_true.mp hany
        simp only [Bool.and_eq_true, decide_eq_true_eq] at hsame
        rcases FirstOf.append_inv hrest with ⟨h1, h2⟩ | ⟨b, rfl, h1⟩
        · have hnone := FirstOf.none_iff.mp h1 u (List.mem_reverse.mpr hu)
          exact FirstOf.append_none h1 (.skip (hA.same u t hsame.1.1 hsame.1.2 hsame.2 hnone) h2)
        · exact FirstOf.append_some h1
      · rw [List.reverse_cons, List.append_assoc] at hrest
        exact hrest

/-- Going through routes puts together what is found for each. -/
theorem foldlM_found {step : Found → Route → Except Bailout Found}
    {P : Ending → Option (List Boundaries) → Prop} {f f' : Found}
    (hstep : ∀ e ∈ endings, ∀ f f', step f (e.route n) = .ok f' → ∃ ts : List Transition,
      f'.transitions = ts.foldl Found.more f.transitions ∧ ∀ r, FirstOf A ts r → P e r)
    (h : (endings.map (Ending.route n)).foldlM step f = .ok f') : ∃ ts : List Transition,
      f'.transitions = ts.foldl Found.more f.transitions ∧ ∀ r, FirstOf A ts r → FirstOf P endings r := by
  induction endings generalizing f with
  | nil =>
    cases h
    exact ⟨[], rfl, fun r hr => by cases hr; exact .nil⟩
  | cons e endings ih =>
    obtain ⟨f1, h1, h2⟩ := bind_eq_ok.mp h
    obtain ⟨ts, hts, hp⟩ := hstep e (by simp) f f1 h1
    obtain ⟨ts', hts', hp'⟩ := ih (fun e he => hstep e (by simp [he])) h2
    refine ⟨ts ++ ts', by rw [hts', hts, List.foldl_append], fun r hr => ?_⟩
    rcases FirstOf.append_inv hr with ⟨h1, h2⟩ | ⟨b, rfl, h1⟩
    · exact .skip (hp none h1) (hp' r h2)
    · exact .found (hp _ h1)

/-- What comes of trying the ways to complete a combination. -/
def Outcome (n : Nfa) (x : Subject) (p : Nat) (A : Transition → Option (List Boundaries) → Prop)
    (c : Combination) (todo : List Task) (r : Option (List Boundaries)) : Prop :=
  r = none ∧ ¬(c.Alive n x p ∧ ∀ task ∈ todo, task.journal? n x p ≠ none) ∨
    r ≠ none ∧ c.Alive n x p ∧ ∃ es c', Picks n x p todo es ∧ c.Adds n p es c' ∧
      c'.Fits n.tree ∧ c'.Alive n x p ∧ A (c'.transition n) r

/-- What comes of it when the next of these ways is to begin with a certain ending. -/
def EndingOutcome (n : Nfa) (x : Subject) (p : Nat)
    (A : Transition → Option (List Boundaries) → Prop) (c : Combination) (todo : List Task)
    (e : Ending) (r : Option (List Boundaries)) : Prop :=
  r = none ∧ ¬((c.Alive n x p ∧ ∀ task ∈ todo, task.journal? n x p ≠ none) ∧
    e.journal? n x p ≠ none) ∨
  r ≠ none ∧ ((c.Alive n x p ∧ ∀ task ∈ todo, task.journal? n x p ≠ none) ∧
    e.journal? n x p ≠ none) ∧ ∃ es c', Picks n x p (todo ++ e.spawnedTasks n) es ∧
      c.Adds n p (e :: es) c' ∧ c'.Fits n.tree ∧ c'.Alive n x p ∧ A (c'.transition n) r

section Complete

variable (hn : n.tree.WellFormed) (hx : Observes n x p context) {c : Combination}
  {todo : List Task} {e : Ending} {r : Option (List Boundaries)}
include hn hx

theorem endingOutcome_of_outcome (he : e.Fits n.tree)
    (h : Outcome n x p A (c.withLookAhead n (e.route n)) (todo ++ e.spawnedTasks n) r) :
    EndingOutcome n x p A c todo e r := by
  have hviable := Ending.viable_iff (x := x) (p := p) hn hx.ahead he
  have halive := Combination.alive_withLookAhead (c := c) (x := x) (p := p) (r := e.route n)
    he.goal hn
  rw [viable_iff_spawnedTasks] at hviable
  rcases h with ⟨hnone, hnot⟩ | ⟨hne, hwith, es, c', hpicks, hadds, hlast⟩
  · refine .inl ⟨hnone, fun ⟨⟨hca, hall⟩, hsome⟩ => hnot ?_⟩
    obtain ⟨hea, hspawned⟩ := hviable.mpr hsome
    exact ⟨halive.mpr ⟨hca, hea⟩, List.forall_mem_append.mpr ⟨hall, hspawned⟩⟩
  · obtain ⟨hca, hea⟩ := halive.mp hwith
    obtain ⟨hall, hspawned⟩ := List.forall_mem_append.mp hpicks.journal?_ne_none
    exact .inr ⟨hne, ⟨⟨hca, hall⟩, hviable.mp ⟨hea, hspawned⟩⟩, es, c', hpicks, hadds.cons, hlast⟩

theorem endingOutcome_of_eq_none (he : e.Fits n.tree) (h : c.addLookAhead? n (e.route n) = none) :
    EndingOutcome n x p A c todo e none := by
  refine .inl ⟨rfl, fun ⟨⟨hca, _⟩, hsome⟩ => ?_⟩
  have hviable := (Ending.viable_iff hn hx.ahead he).mpr hsome
  exact Combination.not_alive_of_addLookAhead?_eq_none he.goal hn h ⟨hca, hviable.1⟩

theorem complete_found (hA : Judges n x p A) {fuel : Nat} {f f' : Found}
    (hc : c.Fits n.tree) (htodo : ∀ task ∈ todo, task.Fits n.tree)
    (h : complete n context fuel c todo f = .ok f') : ∃ ts : List Transition,
      f'.transitions = ts.foldl Found.more f.transitions ∧
      ∀ r, FirstOf A ts r → Outcome n x p A c todo r := by
  induction fuel generalizing c todo f f' with
  | zero => cases h
  | succ fuel ih =>
    cases todo with
    | nil =>
      cases h
      refine ⟨[c.transition n], Found.transitions_add f _, fun r hr => ?_⟩
      have ht : A (c.transition n) r := by
        rcases hr with _ | ht | ⟨ht, ⟨⟩⟩ <;> exact ht
      by_cases halive : c.Alive n x p
      · exact .inr ⟨hA.alive c hc halive r ht, halive, [], c, .nil, .nil, hc, halive, ht⟩
      · exact .inl ⟨hA.dead c hc halive r ht, fun h => halive h.1⟩
    | cons task todo =>
      obtain ⟨htask, htodo⟩ := List.forall_mem_cons.mp htodo
      obtain ⟨⟨routes, work⟩, hroutes, h⟩ := bind_eq_ok.mp h
      obtain ⟨endings, hoffers⟩ := offers_of_routes hn hx htask hroutes
      have hfits := hoffers.fits
      simp only [hoffers.routes_eq] at h
      obtain ⟨ts, hts, hfirst⟩ := foldlM_found (A := A) (P := EndingOutcome n x p A c todo)
        (fun e he f f' hstep => by
          split at hstep
          · rename_i c' hc'
            cases Combination.addLookAhead?_eq_some hc'
            obtain ⟨ts, hts, hout⟩ := ih (Combination.fits_withLookAhead (hfits e he).goal hc)
              (List.forall_mem_append.mpr ⟨htodo, fits_of_mem_spawnedTasks (hfits e he)⟩) hstep
            exact ⟨ts, hts, fun r hr => endingOutcome_of_outcome hn hx (hfits e he) (hout r hr)⟩
          · rename_i hc'
            cases hstep
            refine ⟨[], rfl, fun r hr => ?_⟩
            cases hr
            exact endingOutcome_of_eq_none hn hx (hfits e he) hc') h
      refine ⟨ts, hts, fun r hr => ?_⟩
      rcases hoffers.firstOf (hfirst r hr) with ⟨hnone, hnot⟩ |
        ⟨hne, hall, e, j, he, htask', hj, es, c', hpicks, hadds, hlast⟩
      · refine .inl ⟨hnone, fun ⟨halive, hall⟩ => hnot ?_⟩
        obtain ⟨htask', hall⟩ := List.forall_mem_cons.mp hall
        exact ⟨⟨halive, hall⟩, htask'⟩
      · exact .inr ⟨hne, hall.1, e :: es, c', .cons he htask' hj hpicks, hadds, hlast⟩

end Complete

/-! ## The transitions of a state -/

/-- The nodes of a state are nodes of the tree that a match can go through. -/
structure State.Fits (t : Tree) (s : State) : Prop where
  main : t.kind s.main = .matchFound ∨ t.Standing s.main
  lookAheads : ∀ id ∈ s.lookAheads, t.Standing id

/-- The journal of the preferred way of the main pattern from a state on. -/
def State.mainJournal? (n : Nfa) (x : Subject) (p : Nat) (s : State) : Option Journal :=
  match n.tree.kind s.main with
  | .matchFound => some {}
  | .charClass _ => (Task.leave s.main).journal? n x p
  | _ => (Task.enter s.main).journal? n x p

theorem offers_of_mainRoutes (hn : n.tree.WellFormed) {s : State} (hs : s.Fits n.tree)
    (hx : Observes n x p s.context) {work : Nat} (h : n.mainRoutes s = .ok (routes, work)) :
    ∃ endings, Offers n x p (s.mainJournal? n x p) routes endings := by
  unfold mainRoutes at h
  unfold State.mainJournal?
  have hstanding : n.tree.kind s.main ≠ .matchFound → n.tree.Standing s.main :=
    hs.main.resolve_left
  cases hk : n.tree.kind s.main with
  | matchFound =>
    simp only [hk] at h ⊢
    cases h
    refine ⟨[⟨.done, {}⟩], rfl, fun e he => ?_, ?_⟩
    · obtain rfl := List.mem_singleton.mp he
      exact ⟨by simp [Trail.Fits, Trail.spawned], trivial⟩
    · have hjournal : (⟨.done, {}⟩ : Ending).journal? n x p = some {} := by
        unfold Ending.journal? Ending.ways
        rw [Trail.reach_empty]
        rfl
      rw [List.findSome?_cons, hjournal]
  | charClass set =>
    simp only [hk] at h ⊢
    have hfits : (Task.leave s.main).Fits n.tree := hstanding (by simp [hk])
    exact offers_of_routes hn hx hfits h
  | _ =>
    simp only [hk] at h ⊢
    have hfits : (Task.enter s.main).Fits n.tree := hstanding (by simp [hk])
    exact offers_of_routes hn hx hfits h

theorem transitions_outcome (hA : Judges n x p A) (hn : n.tree.WellFormed) {s : State}
    (hs : s.Fits n.tree) (hx : Observes n x p s.context) {ts : List Transition}
    (h : n.transitions s = .ok ts) {r : Option (List Boundaries)} (hr : FirstOf A ts r) :
    r = none ∧ ¬((∀ id ∈ s.lookAheads, (Task.leave id).journal? n x p ≠ none) ∧
      s.mainJournal? n x p ≠ none) ∨
    r ≠ none ∧ (∀ id ∈ s.lookAheads, (Task.leave id).journal? n x p ≠ none) ∧
      ∃ (e : Ending) (j : Journal), e.Fits n.tree ∧ s.mainJournal? n x p = some j ∧ e.journal? n x p = some j ∧
        ∃ es c', Picks n x p (s.lookAheads.map Task.leave ++ e.spawnedTasks n) es ∧
          (Combination.ofMain n (e.route n)).Adds n p es c' ∧ c'.Fits n.tree ∧
          c'.Alive n x p ∧ A (c'.transition n) r := by
  obtain ⟨⟨routes, work⟩, hroutes, h⟩ := bind_eq_ok.mp h
  obtain ⟨found, hfound, h⟩ := bind_eq_ok.mp h
  cases h
  obtain ⟨endings, hoffers⟩ := offers_of_mainRoutes hn hs hx hroutes
  have hfits := hoffers.fits
  simp only [hoffers.routes_eq] at hfound
  obtain ⟨ts, hts, hfirst⟩ := foldlM_found (A := A) (P := fun e r =>
      Outcome n x p A (.ofMain n (e.route n)) (s.lookAheads.map Task.leave ++ e.spawnedTasks n) r)
    (fun e he f f' hstep => complete_found hn hx hA (Combination.fits_ofMain (hfits e he).goal)
      (List.forall_mem_append.mpr ⟨List.forall_mem_map.mpr hs.lookAheads,
        fits_of_mem_spawnedTasks (hfits e he)⟩) hstep) hfound
  rw [hts] at hr
  refine hoffers.firstOf (C := ∀ id ∈ s.lookAheads, (Task.leave id).journal? n x p ≠ none)
    (Q := fun e r => ∃ es c', Picks n x p (s.lookAheads.map Task.leave ++ e.spawnedTasks n) es ∧
      (Combination.ofMain n (e.route n)).Adds n p es c' ∧ c'.Fits n.tree ∧ c'.Alive n x p ∧
      A (c'.transition n) r)
    ((hfirst r (hA.firstOf_of_found ts [] hr)).mono fun e he r hout => ?_)
  have hviable := Ending.viable_iff (x := x) (p := p) hn hx.ahead (hfits e he)
  have halive := Combination.alive_ofMain (x := x) (p := p) (r := e.route n) (hfits e he).goal hn
  rw [viable_iff_spawnedTasks] at hviable
  rcases hout with ⟨hnone, hnot⟩ | ⟨hne, hmain, es, c', hpicks, hlast⟩
  · refine .inl ⟨hnone, fun ⟨hall, hsome⟩ => hnot ?_⟩
    obtain ⟨hea, hspawned⟩ := hviable.mpr hsome
    exact ⟨halive.mpr hea,
      List.forall_mem_append.mpr ⟨List.forall_mem_map.mpr hall, hspawned⟩⟩
  · obtain ⟨hall, hspawned⟩ := List.forall_mem_append.mp hpicks.journal?_ne_none
    exact .inr ⟨hne, ⟨fun id hid => hall _ (List.mem_map_of_mem hid),
      hviable.mp ⟨halive.mp hmain, hspawned⟩⟩, es, c', hpicks, hlast⟩

end Judging

end PatternAutomata.Nfa
