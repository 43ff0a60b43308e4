import Mathlib.Data.List.Induction
import Mathlib.Data.List.Sort
import PatternAutomata.Ascending
import PatternAutomata.Proofs.Nfa.Combining
import PatternAutomata.Proofs.Nfa.WorkDone

/-!
# Choices of routes

A choice takes one route of the main pattern, one of each look-ahead that is running, and one of
each that begins to run on a route taken. It leads to the classes that its routes consume, if the
next character is in all of them and no guard is against it; and the input may end there if all
routes are done. The combination of the routes chosen says the same as the choice.
-/

namespace PatternAutomata

/-! ## What may follow -/

/-- Whether the next character may follow, or the end of the input if there is none. -/
def Guard.permits (g : Guard) : Option Nat → Bool
  | some c => g.allowed.contains c
  | none => g.allowsEnd

theorem Guard.bounded_allowed (g : Guard) : g.allowed.Bounded := by
  have hlineEnd : (Guard.restriction g.nextLineEnd .lineTerminators).Bounded := by
    unfold Guard.restriction
    split
    · exact CodePointSet.bounded_iff.mpr (by decide)
    · exact fun c hc => CodePointSet.mem_full.mp hc
  unfold Guard.allowed
  split
  · exact fun c hc => absurd hc Bool.false_ne_true
  · intro c hc
    change CodePointSet.contains _ c = true at hc
    rw [CodePointSet.contains_inter, CodePointSet.contains_inter, Bool.and_assoc,
      Bool.and_eq_true] at hc
    exact hlineEnd c hc.1

theorem Guard.permits_union (g h : Guard) (next : Option Nat) :
    (g.union h).permits next = (g.permits next && h.permits next) := by
  cases next with
  | none => simp [permits, allowsEnd, union]
  | some c =>
    simp only [permits]
    by_cases hc : c ≤ maxCodePoint
    · rw [contains_allowed _ hc, contains_allowed _ hc, contains_allowed _ hc]
      unfold union
      grind
    · -- Beyond the last code point complements do not behave, but nothing is allowed there.
      have houtside (g : Guard) : g.allowed.contains c = false :=
        Bool.eq_false_iff.mpr fun h => hc (g.bounded_allowed c h)
      simp only [houtside, Bool.and_self]

namespace Nfa

variable {n : Nfa} {s : State} {next : Option Nat}

/-- Whether the transition can be taken before the next character, or at the end of the input. -/
def Transition.accepts (t : Transition) : Option Nat → Bool
  | some c => t.cls.contains c
  | none => t.acceptsEnd

/-- The class that the route consumes, unless it is done. -/
def Route.consumed? (r : Route) : Option NodeId :=
  match r.goal with
  | .consume id => some id
  | .done => none

/-- The next character is in the class that the route consumes, and the guard is not against it. At
the end of the input the route is done. -/
structure Route.Allows (n : Nfa) (r : Route) (next : Option Nat) : Prop where
  guard : r.guard.permits next = true
  goal : ∀ id, r.goal = .consume id →
    ∃ c set, next = some c ∧ n.tree.kind id = .charClass set ∧ set.contains c = true

theorem Route.Allows.done {r : Route} (h : r.Allows n none) : r.goal = .done := by
  cases hgoal : r.goal with
  | done => rfl
  | consume id =>
    obtain ⟨c, set, hc, -⟩ := h.goal id hgoal
    cases hc

theorem Route.allows_of_done {r : Route} (h : r.goal = .done) :
    r.Allows n next ↔ r.guard.permits next = true := by
  refine ⟨Allows.guard, fun hguard => ⟨hguard, fun id hid => ?_⟩⟩
  rw [h] at hid
  cases hid

theorem Route.allows_some_iff {r : Route} {a : Nat} : r.Allows n (some a) ↔
    (∀ id, r.goal = .consume id → ∃ set, n.tree.kind id = .charClass set ∧ set.contains a = true) ∧
      r.guard.permits (some a) = true := by
  constructor
  · refine fun h => ⟨fun id hid => ?_, h.guard⟩
    obtain ⟨_, set, ⟨⟩, hset⟩ := h.goal id hid
    exact ⟨set, hset⟩
  · rintro ⟨hgoal, hguard⟩
    refine ⟨hguard, fun id hid => ?_⟩
    obtain ⟨set, hset⟩ := hgoal id hid
    exact ⟨a, set, rfl, hset⟩

/-! ## Choices -/

/-- A route, with its place among the routes of a task. -/
structure Pick where
  place : Nat
  route : Route

/-- A choice of a route of each task, and of each look-ahead that begins to run on a route taken.
The routes of a task are those that it has with no work done before. -/
inductive Chooses (n : Nfa) (context : Context) : List Task → List Pick → Prop
  | nil : Chooses n context [] []
  | cons {task : Task} {todo : List Task} {routes : List Route} {work : Nat} {p : Pick}
    {ps : List Pick} (hroutes : n.routes context task 0 = .ok (routes, work))
    (hp : routes[p.place]? = some p.route)
    (rest : Chooses n context (todo ++ p.route.spawned.map (runTask n)) ps) :
    Chooses n context (task :: todo) (p :: ps)

/-- Where routes of the main pattern and of look-aheads lead together. -/
def leadsTo (n : Nfa) (main : Route) (others : List Route) : Target :=
  if ∀ r ∈ main :: others, r.goal = .done then .final
  else .next (main.consumed?.getD n.tree.matchFound) (ascending (others.filterMap Route.consumed?))

/-- A choice of a route of the main pattern from a state on, and of one of each look-ahead. -/
structure Choice (n : Nfa) (s : State) where
  main : Pick
  others : List Pick
  main_mem : ∃ routes work, n.mainRoutes s = .ok (routes, work) ∧
    routes[main.place]? = some main.route
  chooses : Chooses n s.context
    (s.lookAheads.map Task.leave ++ main.route.spawned.map (runTask n)) others

namespace Choice

variable (a : Choice n s)

def picks : List Pick := a.main :: a.others

/-- The places of the routes chosen; choices come in the order of these. -/
def places : List Nat := a.picks.map Pick.place

def routes : List Route := a.picks.map Pick.route

def target : Target := leadsTo n a.main.route (a.others.map Pick.route)

/-- What the routes do to the captures, one after the other. -/
def boundaries : Boundaries := a.routes.foldl (fun b r => b.merge r.boundaries) {}

def Allows (next : Option Nat) : Prop := ∀ r ∈ a.routes, r.Allows n next

/-- The first choice with a property. -/
def First (P : Choice n s → Prop) : Prop := P a ∧ ∀ b, P b → a = b ∨ a.places < b.places

end Choice

/-! ## Combinations of routes -/

theorem insertAscending_pairwise {id : NodeId} {ids : List NodeId} (h : ids.Pairwise (· < ·)) :
    (insertAscending id ids).Pairwise (· < ·) := by
  induction ids with
  | nil => exact List.pairwise_singleton _ _
  | cons b ids ih =>
    obtain ⟨hb, hids⟩ := List.pairwise_cons.mp h
    unfold insertAscending
    split
    · rename_i hlt
      exact List.pairwise_cons.mpr
        ⟨List.forall_mem_cons.mpr ⟨hlt, fun c hc => Nat.lt_trans hlt (hb c hc)⟩, h⟩
    · split
      · exact h
      · rename_i hle hne
        refine List.pairwise_cons.mpr ⟨fun c hc => ?_, ih hids⟩
        rcases mem_insertAscending.mp hc with rfl | hc
        · exact Nat.lt_of_le_of_ne (Nat.le_of_not_lt hle) (Ne.symm hne)
        · exact hb c hc

theorem insertAscending_ascending (id : NodeId) (ids : List NodeId) :
    insertAscending id (ascending ids) = ascending (ids ++ [id]) := by
  refine (insertAscending_pairwise (ascending_pairwise ids)).eq_of_mem_iff
    (ascending_pairwise _) fun a => ?_
  rw [mem_insertAscending, mem_ascending, mem_ascending, List.mem_append, List.mem_singleton,
    or_comm]

namespace Combination

variable {c : Combination} {r : Route}

theorem main_withLookAhead : (c.withLookAhead n r).main = c.main := by
  unfold withLookAhead
  split <;> rfl

theorem lookAheads_withLookAhead : (c.withLookAhead n r).lookAheads =
    match r.consumed? with
    | some id => insertAscending id c.lookAheads
    | none => c.lookAheads := by
  unfold withLookAhead Route.consumed?
  cases r.goal <;> rfl

theorem cls_withLookAhead : (c.withLookAhead n r).cls = (c.addRoute n r).cls := by
  unfold withLookAhead
  split <;> rfl

theorem guard_withLookAhead : (c.withLookAhead n r).guard = c.guard.union r.guard := by
  unfold withLookAhead
  split <;> rfl

theorem boundaries_withLookAhead :
    (c.withLookAhead n r).boundaries = c.boundaries.merge r.boundaries := by
  unfold withLookAhead
  split <;> rfl

/-- What all classes to consume have in common with that of one more route. -/
theorem contains_addRoute (hr : r.Ends n) (a : Nat) :
    (∀ set, (c.addRoute n r).cls = some set → set.contains a = true) ↔
      (∀ set, c.cls = some set → set.contains a = true) ∧ ∀ id, r.goal = .consume id →
        ∃ set, n.tree.kind id = .charClass set ∧ set.contains a = true := by
  unfold addRoute
  cases hgoal : r.goal with
  | done => simp
  | consume id =>
    obtain ⟨set, hk⟩ := hr id hgoal
    simp only [hk, Option.some.injEq, forall_eq', Goal.consume.injEq, NodeKind.charClass.injEq,
      exists_eq_left']
    exact contains_meet c.cls set a

theorem cls_addRoute_of_done (hr : r.goal = .done) : (c.addRoute n r).cls = c.cls := by
  unfold addRoute
  simp only [hr]

theorem transition_of_done (hmain : c.main = none) (hlook : c.lookAheads = []) :
    c.transition n = { target := .final, cls := c.guard.allowed, acceptsEnd := c.guard.allowsEnd,
                       boundaries := c.boundaries } := by
  unfold transition
  simp only [hmain, hlook]

theorem transition_of_consuming (h : ¬(c.main = none ∧ c.lookAheads = [])) :
    c.transition n = { target := .next (c.main.getD n.tree.matchFound) c.lookAheads,
                       cls := meet c.cls c.guard.allowed, acceptsEnd := false,
                       boundaries := c.boundaries } := by
  unfold transition
  simp only
  split
  · exact absurd ⟨‹_›, ‹_›⟩ h
  · rfl

end Combination

/-- The combination of routes, that of the main pattern first. -/
def combined (n : Nfa) : List Route → Combination
  | [] => { main := none }
  | main :: others => others.foldl (Combination.withLookAhead n) (.ofMain n main)

section Combined

variable {main r : Route} {others : List Route}

theorem combined_concat (main : Route) (others : List Route) (r : Route) :
    combined n (main :: others ++ [r]) = (combined n (main :: others)).withLookAhead n r :=
  List.foldl_concat ..

theorem main_combined (main : Route) (others : List Route) :
    (combined n (main :: others)).main = main.consumed? := by
  induction others using List.reverseRecOn with
  | nil => rfl
  | append_singleton others r ih =>
    rw [← List.cons_append, combined_concat, Combination.main_withLookAhead, ih]

theorem lookAheads_combined (main : Route) (others : List Route) :
    (combined n (main :: others)).lookAheads = ascending (others.filterMap Route.consumed?) := by
  induction others using List.reverseRecOn with
  | nil => rfl
  | append_singleton others r ih =>
    rw [← List.cons_append, combined_concat, Combination.lookAheads_withLookAhead, ih,
      List.filterMap_append]
    cases hr : r.consumed? with
    | none => simp [hr]
    | some id => simp [hr, insertAscending_ascending]

theorem permits_combined (main : Route) (others : List Route) (next : Option Nat) :
    (combined n (main :: others)).guard.permits next = true ↔
      ∀ r ∈ main :: others, r.guard.permits next = true := by
  induction others using List.reverseRecOn with
  | nil =>
    rw [List.forall_mem_singleton]
    rfl
  | append_singleton others r ih =>
    rw [← List.cons_append, combined_concat, Combination.guard_withLookAhead, Guard.permits_union,
      Bool.and_eq_true, ih, List.forall_mem_append, List.forall_mem_singleton]

theorem boundaries_combined (main : Route) (others : List Route) :
    (combined n (main :: others)).boundaries =
      (main :: others).foldl (fun b r => b.merge r.boundaries) {} := by
  induction others using List.reverseRecOn with
  | nil => rfl
  | append_singleton others r ih =>
    rw [← List.cons_append, combined_concat, Combination.boundaries_withLookAhead, ih,
      List.foldl_concat]

theorem contains_combined (hends : ∀ r ∈ main :: others, r.Ends n) (a : Nat) :
    (∀ set, (combined n (main :: others)).cls = some set → set.contains a = true) ↔
      ∀ r ∈ main :: others, ∀ id, r.goal = .consume id →
        ∃ set, n.tree.kind id = .charClass set ∧ set.contains a = true := by
  induction others using List.reverseRecOn with
  | nil =>
    refine (Combination.contains_addRoute (hends main (by simp)) a).trans ?_
    rw [List.forall_mem_singleton]
    exact and_iff_right nofun
  | append_singleton others r ih =>
    rw [← List.cons_append, List.forall_mem_append, List.forall_mem_singleton] at hends
    rw [← List.cons_append, combined_concat, Combination.cls_withLookAhead,
      Combination.contains_addRoute hends.2, ih hends.1, List.forall_mem_append,
      List.forall_mem_singleton]

theorem cls_combined_of_done (hdone : ∀ r ∈ main :: others, r.goal = .done) :
    (combined n (main :: others)).cls = none := by
  induction others using List.reverseRecOn with
  | nil =>
    have hmain := hdone main (by simp)
    exact Combination.cls_addRoute_of_done hmain
  | append_singleton others r ih =>
    rw [← List.cons_append, List.forall_mem_append, List.forall_mem_singleton] at hdone
    rw [← List.cons_append, combined_concat, Combination.cls_withLookAhead,
      Combination.cls_addRoute_of_done hdone.2, ih hdone.1]

theorem consumed?_eq_none_iff : r.consumed? = none ↔ r.goal = .done := by
  unfold Route.consumed?
  cases r.goal <;> simp

theorem combined_done_iff : (combined n (main :: others)).main = none ∧
    (combined n (main :: others)).lookAheads = [] ↔ ∀ r ∈ main :: others, r.goal = .done := by
  rw [main_combined, lookAheads_combined, List.forall_mem_cons, consumed?_eq_none_iff]
  refine and_congr_right fun _ => ?_
  simp only [List.eq_nil_iff_forall_not_mem, mem_ascending]
  rw [← List.eq_nil_iff_forall_not_mem, List.filterMap_eq_nil_iff]
  simp only [consumed?_eq_none_iff]

theorem target_combined (main : Route) (others : List Route) :
    ((combined n (main :: others)).transition n).target = leadsTo n main others := by
  unfold leadsTo
  split
  · rename_i hdone
    obtain ⟨hmain, hlook⟩ := combined_done_iff.mpr hdone
    rw [Combination.transition_of_done hmain hlook]
  · rename_i hdone
    rw [Combination.transition_of_consuming (combined_done_iff.not.mpr hdone), main_combined,
      lookAheads_combined]

/-- A combination can be taken exactly if every route in it can. -/
theorem accepts_combined (hends : ∀ r ∈ main :: others, r.Ends n) :
    ((combined n (main :: others)).transition n).accepts next = true ↔
      ∀ r ∈ main :: others, r.Allows n next := by
  by_cases hdone : ∀ r ∈ main :: others, r.goal = .done
  · obtain ⟨hmain, hlook⟩ := combined_done_iff.mpr hdone
    rw [forall₂_congr fun r hr => Route.allows_of_done (hdone r hr), ← permits_combined (n := n),
      Combination.transition_of_done hmain hlook]
    cases next <;> rfl
  · rw [Combination.transition_of_consuming (combined_done_iff.not.mpr hdone)]
    cases next with
    | none => exact iff_of_false Bool.false_ne_true fun h => hdone fun r hr => (h r hr).done
    | some a =>
      refine (Combination.contains_meet _ _ a).trans ?_
      simp only [Route.allows_some_iff, forall_and, contains_combined hends]
      exact and_congr_right fun _ => permits_combined main others (some a)

end Combined

/-! ## The transition of a choice -/

theorem Chooses.ends {context : Context} {todo : List Task} {ps : List Pick}
    (h : Chooses n context todo ps) : ∀ r ∈ ps.map Pick.route, r.Ends n := by
  induction h with
  | nil => simp
  | cons hroutes hp _ ih =>
    exact List.forall_mem_cons.mpr ⟨ends_of_routes hroutes _ (List.mem_of_getElem? hp), ih⟩

/-- The transition of routes chosen, that of the main pattern first. -/
def transitionOf (n : Nfa) (ps : List Pick) : Transition :=
  (combined n (ps.map Pick.route)).transition n

namespace Choice

variable (a : Choice n s)

def transition : Transition := transitionOf n a.picks

theorem ends : ∀ r ∈ a.routes, r.Ends n := by
  obtain ⟨routes, work, hroutes, hmem⟩ := a.main_mem
  exact List.forall_mem_cons.mpr
    ⟨ends_of_mainRoutes hroutes _ (List.mem_of_getElem? hmem), a.chooses.ends⟩

theorem target_transition : a.transition.target = a.target := target_combined ..

theorem accepts_transition : a.transition.accepts next = true ↔ a.Allows next :=
  accepts_combined a.ends

theorem boundaries_transition : a.transition.boundaries = a.boundaries := by
  refine Eq.trans ?_ (boundaries_combined (n := n) a.main.route (a.others.map Pick.route))
  unfold transition transitionOf Combination.transition
  simp only
  split <;> rfl

theorem eq_of_picks {a b : Choice n s} (h : a.picks = b.picks) : a = b := by
  cases a
  cases b
  cases h
  rfl

end Choice

end Nfa
end PatternAutomata
