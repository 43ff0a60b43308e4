import Mathlib.Data.Finset.Card
import Mathlib.Data.Finset.Range
import PatternAutomata.Proofs.Backtrack.Ways
import PatternAutomata.Proofs.Nfa.Iterations

/-!
# Walks come to an end

A branch goes through the tree in its order: down, on to the next term and up. The only way back leads
to a loop, and to go in again the branch has to enter it, which it can do once. So branches end, by
induction on the number of loops that have not been entered, and for these on the place in the tree.
A walk does one task after the other, and each of them is done when the branches from it have ended.
-/

namespace PatternAutomata.Nfa

/-- How many loops the path has not entered. -/
def loopsLeft (t : Tree) (p : List PathElement) : Nat :=
  ((Finset.range t.size).filter fun id =>
    (t.group? id).any Group.isLoop = true ∧ PathElement.enter id ∉ p).card

variable {t : Tree} {s s' : Stop} {id : NodeId} {p : List PathElement}

theorem loopsLeft_cons_le (e : PathElement) : loopsLeft t (e :: p) ≤ loopsLeft t p := by
  refine Finset.card_le_card fun id hid => ?_
  rw [Finset.mem_filter, List.mem_cons, not_or] at hid
  exact Finset.mem_filter.mpr ⟨hid.1, hid.2.1, hid.2.2.2⟩

theorem loopsLeft_enter_lt {g : Group} (hg : t.kind id = .group g) (hloop : g.isLoop = true)
    (hnew : .enter id ∉ p) : loopsLeft t (.enter id :: p) < loopsLeft t p := by
  refine Finset.card_lt_card (Finset.ssubset_iff.mpr ⟨id, by simp, fun id' hid' => ?_⟩)
  rcases Finset.mem_insert.mp hid' with rfl | hid'
  · have hlt : id' < t.size := by
      by_contra hge
      rw [Tree.kind, Array.getD_eq_getD_getElem?,
        Array.getElem?_eq_none (Nat.le_of_not_lt hge)] at hg
      cases hg
    refine Finset.mem_filter.mpr ⟨Finset.mem_range.mpr hlt, ?_, hnew⟩
    rw [Tree.group?_eq_some.mpr hg]
    exact hloop
  · rw [Finset.mem_filter, List.mem_cons, not_or] at hid'
    exact Finset.mem_filter.mpr ⟨hid'.1, hid'.2.1, hid'.2.2.2⟩

theorem Moves.loopsLeft_le (hmove : Moves t s s') :
    loopsLeft t s'.path ≤ loopsLeft t s.path := by
  rcases hmove.path with hpath | ⟨e, hpath, -⟩
  · rw [hpath]
  · rw [hpath]
    exact loopsLeft_cons_le e

/-! ## Branches end -/

/-- Every branch from the stop ends. -/
def Stop.Ends (t : Tree) (s : Stop) : Prop := Acc (fun s' s => Moves t s s') s

theorem Stop.ends_of_moves (h : ∀ s', Moves t s s' → s'.Ends t) : s.Ends t := .intro s h

theorem Stop.Ends.moves (h : s.Ends t) (hmove : Moves t s s') : s'.Ends t := h.inv hmove

theorem ends_enter_matchFound (hk : t.kind id = .matchFound) : Stop.Ends t ⟨.enter id, p⟩ := by
  refine Stop.ends_of_moves fun s' hmove => ?_
  cases hmove with
  | pass hne => exact absurd hk hne
  | first hg | skip hg | empty hg => cases hg.symm.trans hk

section Loops

/-- A stop with at most `count` loops left. -/
structure Stop.Within (t : Tree) (count : Nat) (s : Stop) : Prop where
  sound : s.Sound t
  loopsLeft : loopsLeft t s.path ≤ count

variable {count : Nat} (h : t.WellFormed)
  (hfewer : ∀ s : Stop, s.Sound t → loopsLeft t s.path < count → s.Ends t)
include h

theorem Stop.Within.moves (hs : s.Within t count) (hmove : Moves t s s') : s'.Within t count :=
  ⟨hmove.sound h hs.sound, Nat.le_trans hmove.loopsLeft_le hs.loopsLeft⟩

/-- Going on after a term ends if the terms do and so does what comes after the group around them. -/
theorem ends_leave_term {a group : NodeId} (hgroup : t.parent a = some group)
    (hterms : ∀ (k : Nat) c, (t.terms a)[k]? = some c →
      (∀ p, Stop.Within t count ⟨.leave c, p⟩ → Stop.Ends t ⟨.leave c, p⟩) →
      ∀ p, Stop.Within t count ⟨.enter c, p⟩ → Stop.Ends t ⟨.enter c, p⟩)
    (hafter : ∀ p, Stop.Within t count ⟨.after t group, p⟩ → Stop.Ends t ⟨.after t group, p⟩)
    {k : Nat} {c : NodeId} (hc : (t.terms a)[k]? = some c) {p : List PathElement}
    (hp : Stop.Within t count ⟨.leave c, p⟩) : Stop.Ends t ⟨.leave c, p⟩ := by
  -- The induction goes from the last term to the first.
  induction hleft : (t.terms a).length - k generalizing k c p with
  | zero =>
    have hlt := (List.getElem?_eq_some_iff.mp hc).1
    omega
  | succ left ih =>
    refine Stop.ends_of_moves fun s' hmove => ?_
    have hs' := hp.moves h hmove
    have hparent := h.parent_of_term hc
    cases hmove with
    | found hparent' => cases hparent'.symm.trans hparent
    | held hparent' hl =>
      obtain rfl := Option.some.inj (hparent'.symm.trans hparent)
      simp [Tree.terms, hl] at hc
    | next hc' hgroup' hnext hlive =>
      obtain rfl := Option.some.inj ((h.parent_of_term hc').symm.trans hparent)
      obtain rfl := (h.index_term _ _ _ hc').symm.trans (h.index_term _ _ _ hc)
      exact hterms _ _ hnext (fun p hp => ih hnext hp (by omega)) _ hs'
    | last hc' hgroup' hlive =>
      obtain rfl := Option.some.inj ((h.parent_of_term hc').symm.trans hparent)
      obtain rfl := Option.some.inj (hgroup'.symm.trans hgroup)
      exact hafter _ hs'

include hfewer

/-- Entering a node ends if going on after it does: down in the tree there are loops with fewer loops
left, and smaller nodes. -/
theorem ends_enter (hleave : ∀ p, Stop.Within t count ⟨.leave id, p⟩ → Stop.Ends t ⟨.leave id, p⟩)
    {p : List PathElement} (hp : Stop.Within t count ⟨.enter id, p⟩) :
    Stop.Ends t ⟨.enter id, p⟩ := by
  induction id using Nat.strong_induction_on generalizing p with
  | _ id ih =>
    refine Stop.ends_of_moves fun s' hmove => ?_
    have hs' := hp.moves h hmove
    have hafter : ∀ {g}, t.kind id = .group g → g.isLoop = false → Task.after t id = .leave id := by
      intro g hg hloop
      rw [Task.after, Tree.group?_eq_some.mpr hg, Option.any_some, hloop, if_neg (by simp)]
    cases hmove with
    | pass => exact hleave _ hs'
    | skip => exact hleave _ hs'
    | @first _ a first g _ hg ha hc =>
      have hgroup := h.parent_alternative hg ha
      cases hloop : g.isLoop with
      | true =>
        have hnew := hp.sound.not_mem h hg (Tree.canSkip_of_isLoop h hg hloop)
        exact hfewer _ hs'.sound (Nat.lt_of_lt_of_le (loopsLeft_enter_lt hg hloop hnew) hp.loopsLeft)
      | false =>
        have hlt : ∀ (k : Nat) c, (t.terms a)[k]? = some c → c < id := fun k c hc =>
          Nat.lt_trans (h.child_lt a c (Tree.mem_children_of_term hc))
            (h.child_lt id a (h.child_of_parent id a hgroup))
        have hterms : ∀ (k : Nat) c, (t.terms a)[k]? = some c →
            (∀ p, Stop.Within t count ⟨.leave c, p⟩ → Stop.Ends t ⟨.leave c, p⟩) →
            ∀ p, Stop.Within t count ⟨.enter c, p⟩ → Stop.Ends t ⟨.enter c, p⟩ :=
          fun k c hc hleave p hp => ih c (hlt k c hc) hleave hp
        refine hterms 0 first hc (fun p hp => ?_) _ hs'
        exact ends_leave_term h hgroup hterms (by rw [hafter hg hloop]; exact hleave) hc hp
    | @empty _ g _ hg hquantifier =>
      have hloop : g.isLoop = false := by
        cases hloop : g.isLoop with
        | true => rw [Group.isQuantifier_of_isLoop hloop] at hquantifier; exact hquantifier
        | false => rfl
      refine Stop.ends_of_moves fun s'' hmove' => ?_
      have hs'' := hs'.moves h hmove'
      cases hmove'
      rw [hafter hg hloop] at hs'' ⊢
      exact hleave _ hs''

/-- Going on after a node ends, by induction on the nodes above. -/
theorem ends_leave {p : List PathElement} (hp : Stop.Within t count ⟨.leave id, p⟩) :
    Stop.Ends t ⟨.leave id, p⟩ := by
  induction hn : t.size - id using Nat.strong_induction_on generalizing id p with
  | _ n ih =>
    subst hn
    have hterm : ∀ {a group k : Nat}, (t.terms a)[k]? = some id → t.parent a = some group →
        Stop.Ends t ⟨.leave id, p⟩ := by
      intro a group k hc hgroup
      have hlt := h.child_lt a id (Tree.mem_children_of_term hc)
      have hmem := h.child_of_parent group a hgroup
      have hlt' := h.child_lt group a hmem
      have hsize := Tree.lt_size_of_child hmem
      have hleave : ∀ p, Stop.Within t count ⟨.leave group, p⟩ → Stop.Ends t ⟨.leave group, p⟩ :=
        fun p hp => ih (t.size - group) (Nat.sub_lt_sub_left
          (Nat.lt_trans hlt (Nat.lt_trans hlt' hsize)) (Nat.lt_trans hlt hlt')) hp rfl
      refine ends_leave_term h hgroup (fun k c hc hleave p hp => ends_enter h hfewer hleave hp)
        (fun p hp => ?_) hc hp
      unfold Task.after at hp ⊢
      split at hp
      · rename_i hloop
        rw [if_pos hloop]
        exact ends_enter h hfewer hleave hp
      · rename_i hloop
        rw [if_neg hloop]
        exact hleave p hp
    refine Stop.ends_of_moves fun s' hmove => ?_
    cases hmove with
    | found => exact ends_enter_matchFound h.matchFound
    | held _ hl => exact ends_enter_matchFound (h.kind_matchFound hl)
    | next hc hgroup hnext hlive => exact (hterm hc hgroup).moves (.next hc hgroup hnext hlive)
    | last hc hgroup hlive => exact (hterm hc hgroup).moves (.last hc hgroup hlive)

end Loops

/-- Every branch from a stop to which a walk can come ends. -/
theorem Stop.Sound.ends (h : t.WellFormed) (hs : s.Sound t) : s.Ends t := by
  induction hcount : loopsLeft t s.path using Nat.strong_induction_on generalizing s with
  | _ count ih =>
    have hfewer : ∀ s : Stop, s.Sound t → loopsLeft t s.path < count → s.Ends t :=
      fun s hs hlt => ih _ hlt hs rfl
    have hwithin : s.Within t count := ⟨hs, Nat.le_of_eq hcount⟩
    have hleave : ∀ {id p}, Stop.Within t count ⟨.leave id, p⟩ → Stop.Ends t ⟨.leave id, p⟩ :=
      fun hp => ends_leave h hfewer hp
    have henter : ∀ {id p}, Stop.Within t count ⟨.enter id, p⟩ → Stop.Ends t ⟨.enter id, p⟩ :=
      fun hp => ends_enter h hfewer (fun _ => hleave) hp
    obtain ⟨task, p⟩ := s
    cases task with
    | enter id => exact henter hwithin
    | leave id => exact hleave hwithin
    | finishAlternative group =>
      refine Stop.ends_of_moves fun s' hmove => ?_
      have hs' := hwithin.moves h hmove
      cases hmove
      unfold Task.after at hs' ⊢
      split at hs'
      · rw [if_pos ‹_›]
        exact henter hs'
      · rw [if_neg ‹_›]
        exact hleave hs'
    | _ =>
      refine Stop.ends_of_moves fun s' hmove => ?_
      cases hmove

/-! ## Tasks are done -/

section Walks

variable {n : Nfa} {context : Context} {w w' : Walk} {task : Task}

theorem Walk.exists_freeStep (n : Nfa) (context : Context) {tasks : List Task}
    (htasks : w.tasks = task :: tasks) :
    ∃ k w', Walk.step (n.withMaxStates k) context task { w with tasks } = .ok w' ∧
      Walk.FreeStep n context w w' := by
  obtain ⟨w', hw'⟩ : ∃ w', Walk.step (n.withMaxStates (w.work + 1)) context task { w with tasks } =
      .ok w' := by
    cases task with
    | enter id =>
      have hwork : w.work < (n.withMaxStates (w.work + 1)).workLimit := by
        show w.work < 64 * (w.work + 1)
        omega
      exact ⟨_, if_pos hwork⟩
    | _ => exact ⟨_, rfl⟩
  exact ⟨_, w', hw', _, htasks, hw'⟩

/-- With the tasks pending before all others, the walk comes to the others. -/
def Comes (n : Nfa) (context : Context) (p : List PathElement) (tasks : List Task) : Prop :=
  ∀ (w : Walk) (rest : List Task), w.path = p → w.tasks = tasks ++ rest →
    ∃ w', Relation.ReflTransGen (Walk.FreeStep n context) w w' ∧ w'.tasks = rest ∧
      w'.path = Walk.pathAfter p tasks

/-- Tasks are done one after the other. -/
theorem comes_of_stops (hn : n.tree.WellFormed) {p : List PathElement} {tasks : List Task}
    (h : ∀ s ∈ Walk.stops p tasks, Comes n context s.path [s.task]) : Comes n context p tasks := by
  induction tasks generalizing p with
  | nil =>
    intro w rest hpath htasks
    exact ⟨w, .refl, htasks, hpath⟩
  | cons task tasks ih =>
    intro w rest hpath htasks
    obtain ⟨k, w1, hstep, hfree⟩ := Walk.exists_freeStep n context htasks
    rcases Walk.step_cases (n := n.withMaxStates k) hn hstep with ⟨habout, -⟩ | hsets
    · rw [(habout p tasks).1] at h
      obtain ⟨hhere, hrest⟩ := List.forall_mem_cons.mp h
      obtain ⟨w2, hsteps, htasks2, hpath2⟩ := hhere w (tasks ++ rest) hpath htasks
      rw [(habout _ _).2] at hpath2
      obtain ⟨w3, hsteps', htasks3, hpath3⟩ := ih hrest w2 rest hpath2 htasks2
      exact ⟨w3, hsteps.trans hsteps', htasks3, by rw [hpath3, (habout _ _).2]⟩
    · subst hpath
      rw [hsets.stops] at h
      obtain ⟨w2, hsteps, htasks2, hpath2⟩ := ih h w1 rest rfl hsets.tasks
      exact ⟨w2, .head hfree hsteps, htasks2, by rw [hpath2, hsets.pathAfter]⟩

/-- When all branches from a stop end, its task gets done. -/
theorem Stop.Ends.comes (hn : n.tree.WellFormed) (hs : s.Ends n.tree) (context : Context) :
    Comes n context s.path [s.task] := by
  induction hs with
  | intro s _ ih =>
    intro w rest hpath htasks
    obtain ⟨k, w1, hstep, hfree⟩ := Walk.exists_freeStep n context htasks
    rcases Walk.step_cases (n := n.withMaxStates k) hn hstep with ⟨habout, hadds⟩ | hsets
    · obtain ⟨added, hadded, hpathAfter, hmoves⟩ := hadds.tasks
      rw [hpath] at hmoves hpathAfter
      have hadded' : Comes n context s.path added :=
        comes_of_stops hn fun s' hs' => ih s' (hmoves s' hs')
      obtain ⟨w2, hsteps, htasks2, hpath2⟩ := hadded' w1 rest (hadds.path.trans hpath) hadded
      refine ⟨w2, .head hfree hsteps, htasks2, ?_⟩
      rw [hpath2, hpathAfter, (habout _ _).2]
      rfl
    · refine ⟨w1, .single hfree, hsets.tasks, ?_⟩
      rw [← hpath]
      exact (hsets.pathAfter []).symm

/-- What a walk does, it does under every limit that is large enough. -/
theorem exists_run_of_freeSteps (hsteps : Relation.ReflTransGen (Walk.FreeStep n context) w w')
    (hdone : w'.tasks = []) :
    ∃ bound, ∀ k ≥ bound, ∀ fuel ≥ bound, Walk.run (n.withMaxStates k) context fuel w = .ok w' := by
  induction hsteps using Relation.ReflTransGen.head_induction_on with
  | refl =>
    refine ⟨0, fun k _ fuel _ => ?_⟩
    cases fuel with
    | zero => rw [Walk.run, hdone]; rfl
    | succ fuel => rw [Walk.run, hdone]
  | @head w w1 hstep _ ih =>
    obtain ⟨bound, hbound⟩ := ih
    obtain ⟨k₀, htasks, hw1⟩ := hstep
    refine ⟨max k₀ (bound + 1), fun k hk fuel hfuel => ?_⟩
    obtain ⟨fuel, rfl⟩ := Nat.exists_eq_add_of_le' (Nat.le_trans (Nat.le_max_right ..) hfuel)
    rw [← Nat.add_assoc, Walk.run, htasks]
    refine bind_eq_ok.mpr ⟨w1, ?_, hbound k (by omega) _ (by omega)⟩
    exact Walk.step_withMaxStates (n := n.withMaxStates k₀) (k := k)
      (Nat.le_trans (Nat.le_max_left ..) hk) hw1

theorem le_maxTasks (n : Nfa) (k : Nat) : k ≤ Walk.maxTasks (n.withMaxStates k) := by
  have hsize : 1 ≤ 4 * (n.tree.size + 2) * (n.tree.size + 2) :=
    Nat.mul_pos (Nat.mul_pos (by omega) (by omega)) (by omega)
  have hlimit : k ≤ 64 * k + 2 := by omega
  calc k = 1 * k := (Nat.one_mul k).symm
    _ ≤ 4 * (n.tree.size + 2) * (n.tree.size + 2) * (64 * k + 2) := Nat.mul_le_mul hsize hlimit

/-- A walk comes to its end, and finds the same under every limit that is large enough. -/
theorem exists_routes (hn : n.tree.WellFormed) (start : Task) :
    ∃ found bound, ∀ k ≥ bound, (n.withMaxStates k).routes context start 0 = .ok found := by
  have hends := (Stop.sound_start n.tree start).ends hn
  obtain ⟨w, hsteps, hdone, -⟩ :=
    hends.comes hn context { tasks := [start], work := 0 } [] rfl rfl
  obtain ⟨bound, hbound⟩ := exists_run_of_freeSteps hsteps hdone
  exact ⟨(w.routes.reverse, w.work), bound, fun k hk =>
    bind_eq_ok.mpr ⟨w, hbound k hk _ (Nat.le_trans hk (le_maxTasks n k)), rfl⟩⟩

/-- The rule on empty iterations is exact, and makes all walks finite. The first conclusion says that
the stops of a walk are at the ends of branches. On each branch, when the first term of an iteration is
left that could be skipped, the rule applies just when the iteration has begun on this branch, and it
does not apply just when the iteration goes on after a class that it has consumed. A quantifier whose
iterations can be skipped is entered once at most. The walk finds its routes if only the limit is
large enough, and no limit above changes them. -/
theorem empty_iterations_exact {pattern : String} {flags : Flags} {budget : Budget}
    {properties : PropertyLookup} (h : Pattern.parse pattern flags budget properties = .ok n.tree)
    (context : Context) {start : Task} (hstart : start.Begins n.tree) :
    (∀ w s, Walk.Reached n context start w → s ∈ Walk.stops w.path w.tasks →
      ∃ b, Branch n context start s b) ∧
    (∀ s b, Branch n context start s b →
      (∀ group g, n.tree.kind group = .group g → n.tree.canSkip g = true →
        s.path.count (.enter group) ≤ 1) ∧
      ∀ group first, n.tree.Opens group first → s.task = .leave first →
        ∀ w : Walk, w.path = s.path →
          (w.isEmptyIteration n group = true ↔ HasBegun n.tree group first (s :: b)) ∧
          (w.isEmptyIteration n group = false ↔ HasConsumed n.tree first start (s :: b))) ∧
    ∃ found bound, ∀ k ≥ bound, (n.withMaxStates k).routes context start 0 = .ok found := by
  have hn := Pattern.wellFormed_parse h
  refine ⟨fun w s hw hs => exists_branch hn hw hs, fun s b hb => ⟨(hb.sound hn).once,
    fun group first hfirst htask w hpath => ?_⟩, exists_routes hn start⟩
  obtain ⟨task, p⟩ := s
  obtain rfl : task = .leave first := htask
  obtain rfl : w.path = p := hpath
  have hunder : Stop.Under n.tree first ⟨.leave first, w.path⟩ := .refl n.tree first
  have hempty : w.isEmptyIteration n group = true ↔ .enter group ∈ w.path :=
    Walk.isEmptyIteration_iff hfirst
  refine ⟨hempty.trans (hb.mem_path_iff hn hfirst hunder), ?_⟩
  rw [← Bool.not_eq_true, hempty, hb.not_mem_path_iff hn hfirst hunder,
    hb.hasConsumed_iff hn hstart hfirst]

set_option maxRecDepth 100000 in
theorem empty_iterations_exact_nested : ∃ n : Nfa,
    Pattern.parse "((a*)*)*" {} {} Property.standard = .ok n.tree ∧ n.tree.isLoopFree = false ∧
    (Task.enter n.tree.root).Begins n.tree ∧
    (∀ s b, Branch n default (.enter n.tree.root) s b → ∀ group g, n.tree.kind group = .group g →
      n.tree.canSkip g = true → s.path.count (.enter group) ≤ 1) ∧
    ∃ found bound, ∀ k ≥ bound,
      (n.withMaxStates k).routes default (.enter n.tree.root) 0 = .ok found := by
  obtain ⟨t, ht⟩ := exists_ok (x := Pattern.parse "((a*)*)*" {} {} Property.standard)
    (by decide +kernel)
  obtain ⟨-, hbranches, hfound⟩ := empty_iterations_exact (n := { (default : Nfa) with tree := t }) ht
    default .root
  exact ⟨{ (default : Nfa) with tree := t }, ht,
    of_toOption (P := fun t => t.isLoopFree = false) (by decide +kernel) ht, .root,
    fun s b hb => (hbranches s b hb).1, hfound⟩

end Walks

end PatternAutomata.Nfa
