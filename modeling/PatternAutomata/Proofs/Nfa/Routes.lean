import PatternAutomata.Proofs.Nfa.Walking

/-!
# The routes of a walk

Whatever task a walk meets, it finds the ways from there on. The induction is on the fuel: each task
leads to others, for which what is found is known.
-/

namespace PatternAutomata.Nfa

variable {σ : Type} {n : Nfa} {x : Subject} {r : Recorder σ} {position bound : Nat}
  {context : Context} {d : Trail} {id : NodeId} {g : Group}

/-- What holds of all tasks with less fuel. -/
def DoesAll (n : Nfa) (x : Subject) (r : Recorder σ) (position : Nat) (context : Context)
    (bound : Nat) : Prop :=
  ∀ (d : Trail) (task : Task), task.Fits n.tree →
    Does n x r position context bound d [task] (task.ways n x r d)

/-! ## Leaving -/

theorem TrailStep.ways_exit (hg : n.tree.kind id = .group g) (s : Spot σ) :
    (TrailStep.path (.exit id)).ways n x r s = [g.exit r s] := by
  simp [TrailStep.ways, PathElement.mark, Tree.group?_eq_some.mpr hg]

/-- After an alternative of a group the walk goes on with the next iteration or after the group. -/
theorem does_finish (ih : DoesAll n x r position context bound) (hid : n.tree.Standing id)
    (hg : n.tree.kind id = .group g) :
    Does n x r position context bound d
      [.pushPath (.exit id), if g.isLoop then .enter id else .leave id, .popPath] fun s =>
        (d.reach n x r s).flatMap fun s => n.tree.finish x r d.entered s.position id g s := by
  have hfits : (if g.isLoop then Task.enter id else .leave id).Fits n.tree := by
    split <;> exact hid
  refine (ih (d.push (.path (.exit id))) _ hfits).onPath.congr fun s _ => ?_
  simp only [Task.ways, Trail.reach_push, List.flatMap_assoc]
  refine List.flatMap_congr fun s' _ => ?_
  simp only [TrailStep.ways_exit hg, List.flatMap_singleton, Trail.entered_push_exit, Tree.finish,
    Tree.again]
  split
  · simp only [Tree.position_exit]
  · simp only [Tree.position_exit, List.flatMap_singleton]

theorem finishAlternative_walkAt (hg : n.tree.kind id = .group g) (rest : List Task)
    (routes : List Route) (work : Nat) :
    (walkAt d rest routes work).finishAlternative n id = walkAt d
      ([.pushPath (.exit id), if g.isLoop then .enter id else .leave id, .popPath] ++ rest)
      routes work := by
  unfold Walk.finishAlternative
  simp only [Tree.group?_eq_some.mpr hg, Option.any_some]
  rfl

theorem does_finishAlternative (ih : DoesAll n x r position context bound)
    (hid : n.tree.Standing id) (hg : n.tree.kind id = .group g) :
    Does n x r position context (bound + 1) d [.finishAlternative id]
      ((Task.finishAlternative id).ways n x r d) := by
  refine does_of_tasks _ (fun rest routes work next h => ?_)
    ((does_finish ih hid hg).congr fun s _ => ?_)
  · cases h
    exact ⟨work, finishAlternative_walkAt hg rest routes work⟩
  · simp only [Task.ways, hg]

theorem leave_walkAt (hn : n.tree.WellFormed) {a c : NodeId} {k : Nat}
    (hg : n.tree.kind id = .group g) (ha : a ∈ g.alternatives) (hc : (n.tree.terms a)[k]? = some c)
    (rest : List Task) (routes : List Route) (work : Nat) :
    (walkAt d rest routes work).leave n c =
      if k = 0 && (n.tree.canSkip g && d.entered id) then walkAt d rest routes work
      else match (n.tree.terms a)[k + 1]? with
        | some next => walkAt d (.enter next :: rest) routes work
        | none => (walkAt d rest routes work).finishAlternative n id := by
  have hterms := Tree.kind_of_getElem? hc
  have hparent := hn.parent_of_term hc
  have hgroup := hn.parent_alternative hg ha
  have hindex := hn.index_term a k c hc
  have hempty : (walkAt d rest routes work).isEmptyIteration n id =
      (n.tree.canSkip g && d.entered id) := by
    unfold Walk.isEmptyIteration
    rw [Tree.group?_eq_some.mpr hg]
    rfl
  unfold Walk.leave
  simp only [hparent, hterms, hgroup, hindex, hempty]
  rfl

/-- Nothing follows an iteration that could have been skipped and has taken nothing yet. Otherwise
the next term follows, or the end of the alternative. -/
theorem does_leave_term (hn : n.tree.WellFormed) (ih : DoesAll n x r position context bound)
    {a c : NodeId} {k : Nat} (hid : n.tree.Standing id) (hg : n.tree.kind id = .group g)
    (ha : a ∈ g.alternatives) (hc : (n.tree.terms a)[k]? = some c) :
    Does n x r position context (bound + 1) d [.leave c] ((Task.leave c).ways n x r d) := by
  by_cases hskip : k = 0 ∧ n.tree.canSkip g = true ∧ d.entered id = true
  · refine does_of_tasks [] (fun rest routes work next h => ?_)
      (does_nil.congr fun s _ => ?_)
    · cases h
      refine ⟨work, ?_⟩
      rw [leave_walkAt hn hg ha hc, if_pos (by simpa using hskip)]
      rfl
    · refine List.flatMap_eq_nil_iff.mpr fun s' _ => ?_
      simp only
      rw [Tree.goOn_term hn hg ha hc, if_pos ⟨hskip.1, hskip.2.1, hskip.2.2, rfl⟩]
  · have hways : ∀ s : Spot σ, (Task.leave c).ways n x r d s = (d.reach n x r s).flatMap fun s =>
        (Tree.inTurn (n.tree.ways x r) ((n.tree.terms a).drop (k + 1)) s).flatMap
          (n.tree.finish x r d.entered s.position id g) := fun s => by
      refine List.flatMap_congr fun s' _ => ?_
      simp only
      rw [Tree.goOn_term hn hg ha hc, if_neg fun h => hskip ⟨h.1, h.2.1, h.2.2.1⟩]
    cases hnext : (n.tree.terms a)[k + 1]? with
    | some next =>
      refine does_of_tasks [.enter next] (fun rest routes work w h => ?_)
        ((ih d (.enter next) (.term (k + 1) hid hg ha hnext)).congr fun s _ => ?_)
      · cases h
        refine ⟨work, ?_⟩
        rw [leave_walkAt hn hg ha hc, if_neg (by simpa using hskip), hnext]
        rfl
      · rw [hways]
        refine List.flatMap_congr fun s' _ => ?_
        obtain ⟨hlt, hdrop⟩ := List.getElem?_eq_some_iff.mp hnext
        rw [List.drop_eq_getElem_cons hlt, hdrop, Tree.inTurn, List.flatMap_assoc]
        refine List.flatMap_congr fun s1 _ => ?_
        rw [Tree.goOn_term hn hg ha hnext, if_neg fun h => absurd h.1 (Nat.succ_ne_zero k)]
    | none =>
      refine does_of_tasks _ (fun rest routes work w h => ?_)
        ((does_finish ih hid hg).congr fun s _ => ?_)
      · cases h
        refine ⟨work, ?_⟩
        rw [leave_walkAt hn hg ha hc, if_neg (by simpa using hskip), hnext]
        exact finishAlternative_walkAt hg rest routes work
      · rw [hways]
        refine List.flatMap_congr fun s' _ => ?_
        rw [List.drop_eq_nil_of_le (List.getElem?_eq_none_iff.mp hnext), Tree.inTurn,
          List.flatMap_singleton]

theorem does_leave (hn : n.tree.WellFormed) (ih : DoesAll n x r position context bound)
    (hid : n.tree.Standing id) :
    Does n x r position context (bound + 1) d [.leave id] ((Task.leave id).ways n x r d) := by
  cases hid with
  | root =>
    refine does_of_tasks [.enter n.tree.matchFound] (fun rest routes work next h => ?_)
      ((does_matchFound hn.matchFound).congr fun s _ => ?_)
    · cases h
      refine ⟨work, ?_⟩
      unfold Walk.leave
      rw [hn.root_parent]
      rfl
    · simp only [Task.ways, Tree.goOn_root hn]
      exact List.flatMap_singleton' _
  | @body id l _ hl =>
    refine does_of_tasks [.enter l.matchFound] (fun rest routes work next h => ?_)
      ((does_matchFound (hn.kind_matchFound hl)).congr fun s _ => ?_)
    · cases h
      refine ⟨work, ?_⟩
      unfold Walk.leave
      simp only [hn.parent_body hl, hl]
      rfl
    · simp only [Task.ways, Tree.goOn_body hn hl]
      exact List.flatMap_singleton' _
  | term k hgroup hg ha hc => exact does_leave_term hn ih hgroup hg ha hc

/-! ## Entering -/

theorem flatMap_filter {α β : Type} (p : α → Bool) (f : α → List β) (l : List α) :
    (l.filter p).flatMap f = l.flatMap fun a => if p a then f a else [] := by
  induction l with
  | nil => rfl
  | cons a l ih =>
    rw [List.filter_cons, List.flatMap_cons, ← ih]
    split
    · rw [List.flatMap_cons]
    · rfl

/-- The ways to match a group by one of its alternatives, and to go on after it. -/
def alternativeWays (n : Nfa) (x : Subject) (r : Recorder σ) (id : NodeId) (g : Group) (d : Trail)
    (a : NodeId) (s : Spot σ) : List (Spot σ) :=
  (d.reach n x r s).flatMap fun s =>
    (match n.tree.terms a with
      | [] => if g.isQuantifier then [s] else [g.exit r (g.enter r s)]
      | first :: others =>
        (n.tree.iteration r g (n.tree.ways x r) first others s).flatMap
          (n.tree.again x r id g)).flatMap (n.tree.goOn x r d.entered s.position id)

/-- Past the group it does not matter any more that the group was entered. -/
theorem goOn_push_enter (here : Nat) : n.tree.goOn x r (d.push (.path (.enter id))).entered here id =
    n.tree.goOn x r d.entered here id := by
  funext s
  refine Tree.goOn_congr (fun group hlt => ?_) s
  rw [Trail.entered_push_enter, beq_eq_false_iff_ne.mpr (Nat.ne_of_gt hlt), Bool.false_or]

theorem TrailStep.ways_enter (hg : n.tree.kind id = .group g) (s : Spot σ) :
    (TrailStep.path (.enter id)).ways n x r s = [g.enter r s] := by
  simp [TrailStep.ways, PathElement.mark, Tree.group?_eq_some.mpr hg]

theorem TrailStep.ways_pass (s : Spot σ) : (TrailStep.path (.pass id)).ways n x r s = [s] := rfl

/-- A quantifier is passed where it has an empty alternative. -/
theorem does_passed (ih : DoesAll n x r position context bound) (hid : n.tree.Standing id)
    {a : NodeId} (hterms : n.tree.terms a = []) (hq : g.isQuantifier = true) :
    Does n x r position context bound d [.pushPath (.pass id), .leave id, .popPath]
      (alternativeWays n x r id g d a) := by
  refine (ih (d.push (.path (.pass id))) (.leave id) hid).onPath.congr fun s _ => ?_
  simp only [alternativeWays, hterms, hq, Task.ways, Trail.reach_push, List.flatMap_assoc]
  refine List.flatMap_congr fun s' _ => ?_
  simp only [TrailStep.ways_pass, Trail.entered_push_pass, ite_true, List.flatMap_singleton]

/-- Elsewhere an empty alternative is entered and finished. -/
theorem does_emptyAlternative (ih : DoesAll n x r position context bound) (hid : n.tree.Standing id)
    (hg : n.tree.kind id = .group g) {a : NodeId} (hterms : n.tree.terms a = [])
    (hq : g.isQuantifier = false) :
    Does n x r position context bound d [.pushPath (.enter id), .finishAlternative id, .popPath]
      (alternativeWays n x r id g d a) := by
  have hloop : g.isLoop = false := by
    unfold Group.isQuantifier at hq
    exact (Bool.or_eq_false_iff.mp hq).1
  refine (ih (d.push (.path (.enter id))) (.finishAlternative id) ⟨hid, g, hg⟩).onPath.congr
    fun s _ => ?_
  simp only [alternativeWays, hterms, hq, Task.ways, Trail.reach_push, List.flatMap_assoc]
  refine List.flatMap_congr fun s' _ => ?_
  simp only [TrailStep.ways_enter hg, hg, List.flatMap_singleton, Tree.finish, Tree.again, hloop,
    goOn_push_enter, Tree.position_enter, Bool.false_eq_true, ite_false]

/-- Any other alternative begins with its first term. After an iteration that could have been skipped
and has taken nothing, nothing follows. -/
theorem does_firstTerm (hn : n.tree.WellFormed) (ih : DoesAll n x r position context bound)
    (hid : n.tree.Standing id) (hg : n.tree.kind id = .group g) {a first : NodeId}
    {others : List NodeId} (ha : a ∈ g.alternatives) (hterms : n.tree.terms a = first :: others) :
    Does n x r position context bound d [.pushPath (.enter id), .enter first, .popPath]
      (alternativeWays n x r id g d a) := by
  have hfirst : (n.tree.terms a)[0]? = some first := by rw [hterms]; rfl
  refine (ih (d.push (.path (.enter id))) (.enter first) (.term 0 hid hg ha hfirst)).onPath.congr
    fun s _ => ?_
  simp only [alternativeWays, hterms, Task.ways, Trail.reach_push, List.flatMap_assoc]
  refine List.flatMap_congr fun s' _ => ?_
  simp only [TrailStep.ways_enter hg, List.flatMap_singleton, Tree.position_enter, Tree.iteration]
  rw [List.flatMap_assoc, flatMap_filter]
  refine List.flatMap_congr fun s1 _ => ?_
  rw [Tree.goOn_term hn hg ha hfirst, Trail.entered_push_enter, hterms, beq_self_eq_true,
    Bool.true_or]
  by_cases hempty : n.tree.canSkip g = true ∧ s1.position = s'.position
  · rw [if_neg (by simp [hempty.1, hempty.2]), if_pos ⟨rfl, hempty.1, rfl, hempty.2⟩]
  · have hgoes : (n.tree.canSkip g && s1.position == s'.position) = false := by
      rw [Bool.eq_false_iff]
      simpa using hempty
    rw [hgoes, Bool.not_false, if_pos rfl, if_neg fun h => hempty ⟨h.2.1, h.2.2.2⟩, List.flatMap_map]
    refine List.flatMap_congr fun s2 _ => ?_
    simp only [Tree.finish, goOn_push_enter]

theorem does_enterAlternative (hn : n.tree.WellFormed) (ih : DoesAll n x r position context bound)
    (hid : n.tree.Standing id) (hg : n.tree.kind id = .group g) {a : NodeId}
    (ha : a ∈ g.alternatives) :
    Does n x r position context bound d (Walk.enterAlternative n id g.isQuantifier a)
      (alternativeWays n x r id g d a) := by
  unfold Walk.enterAlternative
  cases hterms : n.tree.terms a with
  | nil =>
    cases hq : g.isQuantifier with
    | true => exact does_passed ih hid hterms hq
    | false => exact does_emptyAlternative ih hid hg hterms hq
  | cons first others => exact does_firstTerm hn ih hid hg ha hterms

theorem does_group (hn : n.tree.WellFormed) (ih : DoesAll n x r position context bound)
    (hid : n.tree.Standing id) (hg : n.tree.kind id = .group g) :
    Does n x r position context (bound + 1) d [.enter id] ((Task.enter id).ways n x r d) := by
  refine does_of_tasks (g.alternatives.flatMap (Walk.enterAlternative n id g.isQuantifier))
    (fun rest routes work next h => ?_)
    ((Does.flatMap fun a ha => does_enterAlternative hn ih hid hg ha).congr fun s _ => ?_)
  · refine ⟨work + 1, ?_⟩
    rw [step_enter h]
    unfold Walk.enter
    rw [hg]
    rfl
  · rcases d.reach_eq (n := n) (x := x) (r := r) s with h | ⟨s', h, -⟩
    · simp [alternativeWays, Task.ways, h]
    · simp only [alternativeWays, Task.ways, h, List.flatMap_singleton]
      rw [Tree.ways_group hn hg]
      exact List.flatMap_assoc

/-- A task that is done under a further guard leaves the guard as it was. -/
theorem does_guarded {guard : Guard} (ih : DoesAll n x r position context bound)
    (hid : n.tree.Standing id) (hstep : ∀ rest routes work,
      (walkAt d rest routes work).enter n context id = (walkAt d rest routes work).guarded id guard) :
    Does n x r position context (bound + 1) d [.enter id] fun s =>
      if guard.holds x s.position then (Task.leave id).ways n x r d s else [] := by
  refine ((ih (d.under guard) (.leave id) hid).onTrail (.setGuard d.guard)
    (fun rest routes work next h => ?_) (fun _ _ _ => rfl) fun (hd : d.Fits n.tree) => hd).congr
    fun s _ => ?_
  · exact ⟨work + 1, by rw [step_enter h]; exact hstep ..⟩
  · simp only [Task.ways, Trail.reach_under, Trail.entered_under]
    split <;> rfl

/-- A look-ahead that begins to run is met on the trail. -/
theorem does_lookAhead {l : LookAround} (ih : DoesAll n x r position context bound)
    (hn : n.tree.WellFormed) (hid : n.tree.Standing id) (hl : n.tree.kind id = .look l)
    (hdirection : l.direction = .ahead) :
    Does n x r position context (bound + 1) d [.enter id] ((Task.enter id).ways n x r d) := by
  have hstep : ∀ rest routes work, (walkAt d rest routes work).enter n context id =
      walkAt (d.push (.look id)) (.leave id :: .popSpawned :: rest) routes work := fun _ _ _ => by
    unfold Walk.enter
    simp only [hl, Walk.enterLook, hdirection]
    rfl
  refine ((ih (d.push (.look id)) (.leave id) hid).onTrail .popSpawned
    (fun rest routes work next h => ⟨work + 1, (step_enter h).trans (hstep ..)⟩) (fun _ _ _ => rfl)
    fun hd c hc => ?_).congr fun s _ => ?_
  · rcases List.mem_cons.mp hc with rfl | hc
    · exact ⟨hid, l, hl, hdirection⟩
    · exact hd c hc
  · simp only [Task.ways, Trail.reach_push, Trail.entered_push_look, List.flatMap_assoc]
    refine List.flatMap_congr fun s' _ => ?_
    have hlook : (TrailStep.look id).ways n x r s' = n.tree.ways x r id s' := by
      rw [Tree.ways_look hn hl]
      simp only [TrailStep.ways, hl]
    rw [hlook]
    refine List.flatMap_congr fun s'' hs'' => ?_
    rw [← hlook] at hs''
    rcases TrailStep.ways_eq (n := n) (x := x) (r := r) (.look id) s' with h | ⟨s1, h, h1⟩
    · rw [h] at hs''
      cases hs''
    · rw [h] at hs''
      obtain rfl := List.mem_singleton.mp hs''
      rw [h1]

theorem does_charClass {set : CodePointSet} (hn : n.tree.WellFormed) (hid : n.tree.Standing id)
    (hk : n.tree.kind id = .charClass set) :
    Does n x r position context bound d [.enter id] ((Task.enter id).ways n x r d) := by
  refine (does_goal (show (Goal.consume id).Fits n.tree from ⟨hid, set, hk⟩)
    fun rest routes work => ?_).congr fun s _ => ?_
  · unfold Walk.enter
    rw [hk]
  · refine List.flatMap_congr fun s' _ => List.flatMap_congr fun s'' hs'' => ?_
    refine Tree.goOn_of_lt _ ?_
    rw [Tree.ways_charClass hn hk] at hs''
    split at hs''
    · obtain rfl := List.mem_singleton.mp hs''
      exact Nat.lt_succ_self _
    · cases hs''

/-- Nothing follows a node that does not match. -/
theorem does_fail (hstep : ∀ rest routes work,
      (walkAt d rest routes work).enter n context id = walkAt d rest routes work)
    (hways : ∀ s : Spot σ, s.position = position → n.tree.ways x r id s = []) :
    Does n x r position context (bound + 1) d [.enter id] ((Task.enter id).ways n x r d) := by
  refine does_of_tasks [] (fun rest routes work next h => ?_) (does_nil.congr fun s hs => ?_)
  · exact ⟨work + 1, by rw [step_enter h, hstep]; rfl⟩
  · rcases d.reach_eq (n := n) (x := x) (r := r) s with h | ⟨s', h, hs'⟩
    · simp [Task.ways, h]
    · simp [Task.ways, h, hways s' (hs'.trans hs)]

/-- After a node that takes no character, if it matches, the walk goes on. -/
theorem does_pass (ih : DoesAll n x r position context bound) (hid : n.tree.Standing id)
    (hstep : ∀ rest routes work,
      (walkAt d rest routes work).enter n context id = walkAt d (.leave id :: rest) routes work)
    (hways : ∀ s : Spot σ, s.position = position → n.tree.ways x r id s = [s]) :
    Does n x r position context (bound + 1) d [.enter id] ((Task.enter id).ways n x r d) := by
  refine does_of_tasks [.leave id] (fun rest routes work next h => ?_)
    ((ih d (.leave id) hid).congr fun s hs => ?_)
  · exact ⟨work + 1, by rw [step_enter h, hstep]; rfl⟩
  · rcases d.reach_eq (n := n) (x := x) (r := r) s with h | ⟨s', h, hs'⟩
    · simp [Task.ways, h]
    · simp [Task.ways, h, hways s' (hs'.trans hs)]

theorem enter_assertion_ways (hn : n.tree.WellFormed) {a : Assertion}
    (hk : n.tree.kind id = .assertion a) (s : Spot σ) : (Task.enter id).ways n x r d s =
      if x.holds a s.position then (Task.leave id).ways n x r d s else [] := by
  rcases d.reach_eq (n := n) (x := x) (r := r) s with h | ⟨s', h, hs'⟩
  · simp [Task.ways, h]
  · simp only [Task.ways, h, List.flatMap_singleton, Tree.ways_assertion hn hk, hs']
    split
    · rw [List.flatMap_singleton]
    · rfl

/-- The guard that stands for an end of the text or of a line. -/
theorem holds_endGuard (hx : Observes n x position context) :
    (if n.multiline then ({ nextLineEnd := true } : Guard) else { nextEnd := true }).holds x position =
      x.holds .atEnd position := by
  unfold Guard.holds Subject.holds
  cases hc : x.after? position with
  | none =>
    have hle := List.getElem?_eq_none_iff.mp hc
    have heq : position = x.text.length := Nat.le_antisymm hx.le_length hle
    simp only [heq, decide_true, Bool.true_or]
    split <;> rfl
  | some c =>
    have hlt := (List.getElem?_eq_some_iff.mp hc).1
    simp only [Nat.ne_of_lt hlt, decide_false, Bool.false_or, hx.multiline]
    rw [Guard.contains_allowed _ (toNat_le_maxCodePoint c)]
    cases n.multiline <;> simp [Subject.isLineTerminator]

/-- The guard that asks for a word boundary, or for none, after what comes before. -/
theorem holds_wordGuard (before : Bool) (x : Subject) (position : Nat) :
    (if before then ({ nextNotWord := true } : Guard) else { nextWord := true }).holds x position =
      (before != Subject.isWord (x.after? position)) := by
  unfold Guard.holds
  cases x.after? position with
  | none => cases before <;> rfl
  | some c =>
    simp only
    rw [Guard.contains_allowed _ (toNat_le_maxCodePoint c)]
    cases before <;> simp [Subject.isWord]

theorem does_assertion (hn : n.tree.WellFormed) (hx : Observes n x position context)
    (ih : DoesAll n x r position context bound) (hid : n.tree.Standing id) {a : Assertion}
    (hk : n.tree.kind id = .assertion a) :
    Does n x r position context (bound + 1) d [.enter id] ((Task.enter id).ways n x r d) := by
  have henter : ∀ rest routes work, (walkAt d rest routes work).enter n context id =
      (walkAt d rest routes work).enterAssertion n context id a := fun rest routes work => by
    unfold Walk.enter
    rw [hk]
  cases a with
  | atStart =>
    have hstart := hx.atStart id hid.inPattern hk
    cases hholds : x.holds .atStart position with
    | true =>
      rw [hholds] at hstart
      refine does_pass ih hid (fun rest routes work => ?_) fun s hs => ?_
      · rw [henter, Walk.enterAssertion, hstart]
        rfl
      · rw [Tree.ways_assertion hn hk, hs, hholds]
        rfl
    | false =>
      rw [hholds] at hstart
      refine does_fail (fun rest routes work => ?_) fun s hs => ?_
      · rw [henter, Walk.enterAssertion, hstart]
        rfl
      · rw [Tree.ways_assertion hn hk, hs, hholds]
        rfl
  | atEnd =>
    refine (does_guarded ih hid henter).congr fun s hs => ?_
    rw [enter_assertion_ways hn hk, hs, holds_endGuard hx]
  | wordBoundary =>
    have hword := hx.word id hid.inPattern (.inl hk)
    refine (does_guarded ih hid henter).congr fun s hs => ?_
    rw [enter_assertion_ways hn hk, hs, holds_wordGuard, hword]
    rfl
  | notWordBoundary =>
    have hword := hx.word id hid.inPattern (.inr hk)
    have hswap : (if Walk.holds context n.lookBehinds.word then ({ nextWord := true } : Guard)
        else { nextNotWord := true }) = if !Walk.holds context n.lookBehinds.word then
          { nextNotWord := true } else { nextWord := true } := by
      cases Walk.holds context n.lookBehinds.word <;> rfl
    refine (does_guarded ih hid henter).congr fun s hs => ?_
    have hnot : ∀ p q : Bool, ((!p) != q) = (p == q) := by decide
    rw [enter_assertion_ways hn hk, hs, hswap, holds_wordGuard, hword, hnot]
    rfl

theorem does_lookBehind {l : LookAround} (hn : n.tree.WellFormed)
    (hx : Observes n x position context) (ih : DoesAll n x r position context bound)
    (hid : n.tree.Standing id) (hl : n.tree.kind id = .look l) (hdirection : l.direction = .behind) :
    Does n x r position context (bound + 1) d [.enter id] ((Task.enter id).ways n x r d) := by
  obtain ⟨classes, hclasses, hholds⟩ := hx.behind id l hid.inPattern hl hdirection
  have henter : ∀ rest routes work, (walkAt d rest routes work).enter n context id =
      if x.endsWith position classes = l.negated then walkAt d rest routes work
      else walkAt d (.leave id :: rest) routes work := fun rest routes work => by
    unfold Walk.enter
    simp only [hl, Walk.enterLook, hdirection, hholds]
    rfl
  have hways : ∀ s : Spot σ, s.position = position → n.tree.ways x r id s =
      if x.endsWith position classes = l.negated then [] else [s] := fun s hs => by
    rw [Tree.ways_look hn hl, Tree.lookWays, hdirection]
    simp only [hclasses, hs]
  by_cases heq : x.endsWith position classes = l.negated
  · simp only [if_pos heq] at henter hways
    exact does_fail henter hways
  · simp only [if_neg heq] at henter hways
    exact does_pass ih hid henter hways

/-! ## All tasks -/

theorem does_all (hn : n.tree.WellFormed) (hx : Observes n x position context) (bound : Nat) :
    DoesAll n x r position context bound := by
  induction bound with
  | zero =>
    intro d task _ fuel hfuel rest routes work done hrun
    obtain ⟨fuel', rfl, -⟩ := run_cons hrun
    exact absurd hfuel (Nat.not_succ_le_zero _)
  | succ bound ih =>
    intro d task hfits
    cases task with
    | enter id =>
      have hterm := Tree.Standing.isTerm hn hfits
      cases hk : n.tree.kind id with
      | charClass set => exact does_charClass hn hfits hk
      | backReference number =>
        refine does_fail (fun rest routes work => ?_) fun s _ => Tree.ways_backReference hn hk
        unfold Walk.enter
        rw [hk]
      | assertion a => exact does_assertion hn hx ih hfits hk
      | group g => exact does_group hn ih hfits hk
      | look l =>
        cases hdirection : l.direction with
        | ahead => exact does_lookAhead ih hn hfits hk hdirection
        | behind => exact does_lookBehind hn hx ih hfits hk hdirection
      | sequence terms =>
        rw [hk] at hterm
        cases hterm
      | matchFound =>
        rw [hk] at hterm
        cases hterm
    | leave id => exact does_leave hn ih hfits
    | finishAlternative id =>
      obtain ⟨hid, g, hg⟩ := hfits
      exact does_finishAlternative ih hid hg
    | _ => exact absurd hfits id

/-- The routes from a task on are those of endings that split up its ways, in their order. -/
theorem routes_ways (hn : n.tree.WellFormed) (hx : Observes n x position context) {task : Task}
    (hfits : task.Fits n.tree) {work work' : Nat} {routes : List Route}
    (h : n.routes context task work = .ok (routes, work')) :
    ∃ endings : List Ending, routes = (endings.foldl (Ending.addTo n) []).reverse ∧
      (∀ e ∈ endings, e.Fits n.tree) ∧ ∀ s : Spot σ, s.position = position →
        task.ways n x r {} s = endings.flatMap (Ending.ways n x r · s) := by
  obtain ⟨done, hrun, h⟩ := bind_eq_ok.mp h
  cases h
  obtain ⟨fuel, -, endings, work1, hrun, hends, hways⟩ := does_all (r := r) hn hx (Walk.maxTasks n) {} task
    hfits (Walk.maxTasks n) (Nat.le_refl _) [] [] work done hrun
  refine ⟨endings, ?_, hends (by simp [Trail.Fits, Trail.spawned]), hways⟩
  cases fuel <;> cases hrun <;> rfl

end PatternAutomata.Nfa
