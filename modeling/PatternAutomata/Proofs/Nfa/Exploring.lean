import PatternAutomata.Nfa.States
import PatternAutomata.Pattern.Reader
import PatternAutomata.Proofs.Nfa.Choices

/-!
# All choices

The transitions of a state are its choices of routes, in the order of the places that the routes
have among those of their tasks. A choice is given up when no character is in all the classes it
consumes so far. One that can never be taken is left out, and so is one that leads to the same
target for the same next characters as one before.
-/

namespace PatternAutomata.Nfa

variable {n : Nfa} {s : State}

/-! ## Transitions that do the same -/

namespace Transition

/-- Nothing can follow. -/
def Never (t : Transition) : Prop := ∀ next, t.accepts next = false

/-- The transitions lead to the same target for the same next characters. -/
def Alike (t u : Transition) : Prop := t.target = u.target ∧ ∀ next, t.accepts next = u.accepts next

variable {t u : Transition}

theorem never_iff : t.Never ↔ (t.cls.isEmpty && !t.acceptsEnd) = true := by
  rw [Bool.and_eq_true, Bool.not_eq_true', CodePointSet.isEmpty_iff_contains]
  exact ⟨fun h => ⟨fun c => h (some c), h none⟩, fun h next => next.casesOn h.2 h.1⟩

theorem alike_iff :
    t.Alike u ↔ (t.target = u.target && t.cls = u.cls && t.acceptsEnd = u.acceptsEnd) = true := by
  simp only [Bool.and_eq_true, decide_eq_true_eq, and_assoc]
  refine and_congr_right fun _ => ⟨fun h => ⟨?_, h none⟩, fun h next => ?_⟩
  · exact CodePointSet.eq_of_mem_iff fun c => Bool.eq_iff_iff.mp (h (some c))
  · cases next with
    | none => exact h.2
    | some c => exact congrArg (CodePointSet.contains · c) h.1

instance : Decidable (t.Alike u) := decidable_of_iff _ alike_iff.symm

theorem Alike.symm (h : t.Alike u) : u.Alike t := ⟨h.1.symm, fun next => (h.2 next).symm⟩

theorem Alike.trans {v : Transition} (h : t.Alike u) (h' : u.Alike v) : t.Alike v :=
  ⟨h.1.trans h'.1, fun next => (h.2 next).trans (h'.2 next)⟩

end Transition

section Kept

variable {us : List Transition}

/-- A transition is left out if it can never be taken, or if one found before does the same. -/
theorem Found.more_cases (us : List Transition) (t : Transition) :
    Found.more us t = us ∧ (t.Never ∨ ∃ u ∈ us, u.Alike t) ∨
      Found.more us t = t :: us ∧ ¬t.Never ∧ ∀ u ∈ us, ¬u.Alike t := by
  unfold Found.more Found.add
  split
  · rename_i hnever
    exact .inl ⟨rfl, .inl (Transition.never_iff.mpr hnever)⟩
  · rename_i hnever
    rw [← Transition.never_iff] at hnever
    split
    · rename_i hany
      obtain ⟨u, hu, hsame⟩ := List.any_eq_true.mp hany
      exact .inl ⟨rfl, .inr ⟨u, hu, Transition.alike_iff.mpr hsame⟩⟩
    · rename_i hany
      refine .inr ⟨rfl, hnever, fun u hu hsame => hany ?_⟩
      exact List.any_eq_true.mpr ⟨u, hu, Transition.alike_iff.mp hsame⟩

/-- Of the transitions that are kept each can be taken, and no two do the same. -/
structure Kept (us : List Transition) : Prop where
  taken : ∀ u ∈ us, ¬u.Never
  distinct : us.Pairwise fun u v => ¬u.Alike v

theorem Kept.foldl_more (h : Kept us) (l : List Transition) : Kept (l.foldl Found.more us) := by
  induction l generalizing us with
  | nil => exact h
  | cons t l ih =>
    refine ih ?_
    rcases Found.more_cases us t with ⟨heq, -⟩ | ⟨heq, hnever, hnew⟩
    · rwa [heq]
    · rw [heq]
      exact ⟨List.forall_mem_cons.mpr ⟨hnever, h.taken⟩,
        List.pairwise_cons.mpr ⟨fun u hu hsame => hnew u hu hsame.symm, h.distinct⟩⟩

/-- What is left out is never the first of its kind. -/
theorem find?_foldl_more {P : Transition → Bool} (hnever : ∀ t, t.Never → P t = false)
    (hsame : ∀ t u, t.Alike u → P t = P u) (us l : List Transition) :
    (l.foldl Found.more us).reverse.find? P = (us.reverse ++ l).find? P := by
  induction l generalizing us with
  | nil => rw [List.append_nil, List.foldl_nil]
  | cons t l ih =>
    rw [List.foldl_cons, ih, List.find?_append, List.find?_append, List.find?_cons]
    rcases Found.more_cases us t with ⟨heq, ht⟩ | ⟨heq, -, -⟩
    · rw [heq]
      cases hP : P t with
      | false => rfl
      | true =>
        rcases ht with ht | ⟨u, hu, ht⟩
        · rw [hnever t ht] at hP
          cases hP
        · -- What was found before does the same, so the search ends there.
          have hfound : (us.reverse.find? P).isSome = true :=
            List.find?_isSome.mpr ⟨u, List.mem_reverse.mpr hu, (hsame u t ht).trans hP⟩
          obtain ⟨v, hv⟩ := Option.isSome_iff_exists.mp hfound
          rw [hv]
          rfl
    · rw [heq, List.reverse_cons, List.find?_append, List.find?_cons, Option.or_assoc]
      cases P t <;> rfl

end Kept

/-! ## All choices -/

/-- The choices `C` are made one after the other in the order of their places, and each adds its
transition `T` to those found before. A choice that is left out can never be taken. -/
structure Explores (C : List Pick → Prop) (T : List Pick → Transition) (found : List (List Pick))
    (us us' : List Transition) : Prop where
  chosen : ∀ ps ∈ found, C ps
  ordered : found.Pairwise fun ps qs => ps.map Pick.place < qs.map Pick.place
  complete : ∀ ps, C ps → ps ∈ found ∨ (T ps).Never
  found : us' = (found.map T).foldl Found.more us

section Explores

variable {T : List Pick → Transition} {f f' : Found}

/-- The first route chosen is one of `routes`, and the choice goes on as `C` says. -/
def Begins (routes : List Route) (C : Pick → List Pick → Prop) (qs : List Pick) : Prop :=
  ∃ p ps, qs = p :: ps ∧ routes[p.place]? = some p.route ∧ C p ps

variable {C : Pick → List Pick → Prop} {routes : List Route} {r : Route}

theorem getElem?_concat {i : Nat} {r' : Route} (h : routes[i]? = some r') :
    (routes ++ [r])[i]? = some r' := by
  rw [List.getElem?_append_left (List.getElem?_eq_some_iff.mp h).1, h]

theorem Begins.concat {qs : List Pick} (h : Begins routes C qs) : Begins (routes ++ [r]) C qs := by
  obtain ⟨p, ps, rfl, hp, hc⟩ := h
  exact ⟨p, ps, rfl, getElem?_concat hp, hc⟩

theorem begins_concat {qs : List Pick} (h : Begins (routes ++ [r]) C qs) :
    Begins routes C qs ∨ ∃ ps, qs = ⟨routes.length, r⟩ :: ps ∧ C ⟨routes.length, r⟩ ps := by
  obtain ⟨⟨place, route⟩, ps, rfl, hp, hc⟩ := h
  simp only at hp
  by_cases hplace : place < routes.length
  · rw [List.getElem?_append_left hplace] at hp
    exact .inl ⟨_, ps, rfl, hp, hc⟩
  · have hle := Nat.le_of_not_lt hplace
    rw [List.getElem?_append_right hle, List.getElem?_singleton] at hp
    split at hp
    · rename_i hzero
      cases hp
      obtain rfl : place = routes.length := Nat.le_antisymm (Nat.le_of_sub_eq_zero hzero) hle
      exact .inr ⟨ps, rfl, hc⟩
    · cases hp

/-- The choices that begin with one more route come after those that begin with the others. -/
theorem Explores.concat {found last : List (List Pick)} {us us' us'' : List Transition}
    (hfound : Explores (Begins routes C) T found us us')
    (hlast : Explores (C ⟨routes.length, r⟩) (fun ps => T (⟨routes.length, r⟩ :: ps)) last
      us' us'') :
    Explores (Begins (routes ++ [r]) C) T (found ++ last.map (⟨routes.length, r⟩ :: ·))
      us us'' where
  chosen := by
    refine List.forall_mem_append.mpr ⟨fun qs hqs => (hfound.chosen qs hqs).concat, ?_⟩
    refine List.forall_mem_map.mpr fun ps hps => ?_
    exact ⟨_, ps, rfl, by simp, hlast.chosen ps hps⟩
  ordered := by
    refine List.pairwise_append.mpr ⟨hfound.ordered, ?_, fun qs hqs qs' hqs' => ?_⟩
    · exact List.pairwise_map.mpr (hlast.ordered.imp fun h => List.Lex.cons h)
    · obtain ⟨p, ps, rfl, hp, -⟩ := hfound.chosen qs hqs
      obtain ⟨ps', -, rfl⟩ := List.mem_map.mp hqs'
      exact List.Lex.rel (List.getElem?_eq_some_iff.mp hp).1
  complete := by
    intro qs hqs
    rcases begins_concat hqs with hqs | ⟨ps, rfl, hps⟩
    · exact (hfound.complete qs hqs).imp_left (List.mem_append_left _)
    · refine (hlast.complete ps hps).imp_left fun hmem => ?_
      exact List.mem_append_right _ (List.mem_map_of_mem hmem)
  found := by
    rw [hlast.found, hfound.found, List.map_append, List.foldl_append, List.map_map]
    rfl

/-- Choices that begin with a route of a list are made route by route. -/
theorem foldlM_explores {step : Found → Route → Except Bailout Found}
    (hstep : ∀ i r f f', routes[i]? = some r → step f r = .ok f' → ∃ found,
      Explores (C ⟨i, r⟩) (fun ps => T (⟨i, r⟩ :: ps)) found f.transitions f'.transitions)
    (h : routes.foldlM step f = .ok f') :
    ∃ found, Explores (Begins routes C) T found f.transitions f'.transitions := by
  -- From the right: the place of the last route is the number of routes before it.
  induction routes using List.reverseRecOn generalizing f' with
  | nil =>
    cases h
    exact ⟨[], by simp, .nil, by simp [Begins], rfl⟩
  | append_singleton routes r ih =>
    rw [List.foldlM_append] at h
    obtain ⟨f1, h1, h⟩ := bind_eq_ok.mp h
    obtain ⟨_, h2, h⟩ := bind_eq_ok.mp h
    cases h
    obtain ⟨found, hfound⟩ := ih (fun i r' f f' hi => hstep i r' f f' (getElem?_concat hi)) h1
    obtain ⟨last, hlast⟩ := hstep routes.length r f1 f' (by simp) h2
    exact ⟨_, hfound.concat hlast⟩

variable {context : Context} {main : Route} {chosen rest : List Route}

/-- No character is in all the classes of a combination that is given up. -/
theorem never_of_addLookAhead? (hends : ∀ r' ∈ main :: chosen ++ r :: rest, r'.Ends n)
    (h : (combined n (main :: chosen)).addLookAhead? n r = none) :
    ((combined n (main :: chosen ++ r :: rest)).transition n).Never := by
  rw [List.append_cons] at hends ⊢
  have hends' := (List.forall_mem_append.mp hends).1
  have hcls : ∃ set, (combined n (main :: chosen ++ [r])).cls = some set ∧ set.isEmpty = true := by
    unfold Combination.addLookAhead? at h
    simp only at h
    split at h
    · rename_i hany
      rw [combined_concat, Combination.cls_withLookAhead]
      exact (Option.any_eq_true ..).mp hany
    · split at h <;> cases h
  obtain ⟨set, hset, hempty⟩ := hcls
  -- Whatever follows would have to be in all classes, and so in the common part, which is empty.
  refine fun next => Bool.eq_false_iff.mpr fun haccepts => ?_
  have hallows : ∀ r' ∈ main :: (chosen ++ [r]), r'.Allows n next := fun r' hr' =>
    (accepts_combined hends).mp haccepts r' (List.mem_append_left rest hr')
  cases next with
  | none =>
    rw [List.cons_append, cls_combined_of_done fun r' hr' => (hallows r' hr').done] at hset
    cases hset
  | some a =>
    have hmem := (contains_combined hends' a).mpr
      (fun r' hr' => (Route.allows_some_iff.mp (hallows r' hr')).1) set hset
    rw [CodePointSet.isEmpty_iff_contains.mp hempty] at hmem
    cases hmem

/-- A route of a look-ahead is either given up, or the combination with it is completed. -/
theorem explores_addLookAhead? {todo : List Task} {r : Route}
    (hends : ∀ r' ∈ main :: chosen ++ [r], r'.Ends n)
    (hnone : (combined n (main :: chosen)).addLookAhead? n r = none → f = f')
    (hsome : (combined n (main :: chosen)).addLookAhead? n r =
        some (combined n (main :: chosen ++ [r])) →
      ∃ found, Explores (Chooses n context todo)
        (fun ps => (combined n (main :: chosen ++ [r] ++ ps.map Pick.route)).transition n) found
        f.transitions f'.transitions) :
    ∃ found, Explores (Chooses n context todo)
      (fun ps => (combined n (main :: chosen ++ r :: ps.map Pick.route)).transition n) found
      f.transitions f'.transitions := by
  cases hadd : (combined n (main :: chosen)).addLookAhead? n r with
  | none =>
    obtain rfl := hnone hadd
    refine ⟨[], ⟨by simp, .nil, fun ps hps => .inr (never_of_addLookAhead? ?_ hadd), rfl⟩⟩
    rw [List.append_cons]
    exact List.forall_mem_append.mpr ⟨hends, hps.ends⟩
  | some c =>
    rw [combined_concat, ← Combination.addLookAhead?_eq_some hadd] at hsome
    obtain ⟨found, hfound⟩ := hsome hadd
    refine ⟨found, ?_⟩
    simpa only [List.append_assoc, List.cons_append, List.nil_append] using hfound

/-- All ways to complete a combination are gone through. -/
theorem complete_explores {fuel : Nat} {todo : List Task}
    (hends : ∀ r ∈ main :: chosen, r.Ends n)
    (h : complete n context fuel (combined n (main :: chosen)) todo f = .ok f') :
    ∃ found, Explores (Chooses n context todo)
      (fun ps => (combined n (main :: chosen ++ ps.map Pick.route)).transition n) found
      f.transitions f'.transitions := by
  induction fuel generalizing chosen todo f f' with
  | zero => cases h
  | succ fuel ih =>
    cases todo with
    | nil =>
      cases h
      refine ⟨[[]], ⟨by simp [Chooses.nil], List.pairwise_singleton _ _, ?_, ?_⟩⟩
      · rintro ps ⟨⟩
        exact .inl (List.mem_singleton_self _)
      · rw [Found.transitions_add]
        simp
    | cons task todo =>
      obtain ⟨⟨routes, work⟩, hroutes, h⟩ := bind_eq_ok.mp h
      obtain ⟨k, hunworked⟩ := routes_unworked hroutes
      obtain ⟨found, hfound⟩ := foldlM_explores
        (C := fun p => Chooses n context (todo ++ p.route.spawned.map (runTask n)))
        (T := fun ps => (combined n (main :: chosen ++ ps.map Pick.route)).transition n)
        (fun i r f f' hi hr => by
          have hends' : ∀ r' ∈ main :: chosen ++ [r], r'.Ends n :=
            List.forall_mem_append.mpr ⟨hends, List.forall_mem_singleton.mpr
              (ends_of_routes hroutes r (List.mem_of_getElem? hi))⟩
          refine explores_addLookAhead? hends' (fun hadd => ?_) fun hadd => ih hends' ?_
          · simpa only [hadd, Except.ok.injEq] using hr
          · simp only [hadd] at hr
            exact hr) h
      refine ⟨found, ⟨fun qs hqs => ?_, hfound.ordered, fun qs hqs => ?_, hfound.found⟩⟩
      · obtain ⟨p, ps, rfl, hp, hps⟩ := hfound.chosen qs hqs
        exact .cons hunworked hp hps
      · cases hqs with
        | cons hroutes' hp hps =>
          -- The routes do not depend on the work done before, so they are the same ones.
          cases hunworked.symm.trans hroutes'
          exact hfound.complete _ ⟨_, _, rfl, hp, hps⟩

end Explores

/-! ## The transitions of a state -/

theorem Choice.alike_transition (a : Choice n s) {t : Transition} : t.Alike a.transition ↔
    a.target = t.target ∧ ∀ next, a.Allows next ↔ t.accepts next = true := by
  refine and_congr (eq_comm.trans ?_) (forall_congr' fun next => ?_)
  · rw [a.target_transition]
  · rw [← a.accepts_transition, ← Bool.eq_iff_iff, eq_comm]

/-- The transitions are exactly the choices of a state: they can be taken when a choice can, and the
captures are those of the first choice. -/
structure Combines (n : Nfa) (s : State) (ts : List Transition) : Prop where
  successors : ∀ target next, (∃ t ∈ ts, t.target = target ∧ t.accepts next = true) ↔
    ∃ a : Choice n s, a.target = target ∧ a.Allows next
  /-- A transition is the first choice that leads to its target for the same next characters. -/
  first : ∀ t ∈ ts, ∃ a : Choice n s, t.boundaries = a.boundaries ∧ a.First fun a =>
    a.target = t.target ∧ ∀ next, a.Allows next ↔ t.accepts next = true
  /-- The first transition that can be taken to a target is the first choice that can. -/
  preferred : ∀ target next t,
    ts.find? (fun t => decide (t.target = target) && t.accepts next) = some t →
    ∃ a : Choice n s, t.boundaries = a.boundaries ∧ a.First fun a =>
      a.target = target ∧ a.Allows next

section Transitions

variable {ts : List Transition} (h : n.transitions s = .ok ts)
include h

theorem transitions_explores : ∃ found,
    Explores (fun ps => ∃ a : Choice n s, a.picks = ps) (transitionOf n) found [] ts.reverse := by
  obtain ⟨⟨routes, work⟩, hroutes, h⟩ := bind_eq_ok.mp h
  obtain ⟨f, hf, h⟩ := bind_eq_ok.mp h
  cases h
  have hends := ends_of_mainRoutes hroutes
  obtain ⟨found, hfound⟩ := foldlM_explores (T := transitionOf n)
    (C := fun p => Chooses n s.context
      (s.lookAheads.map Task.leave ++ p.route.spawned.map (runTask n)))
    (fun i r f f' hi hr => complete_explores
      (List.forall_mem_singleton.mpr (hends r (List.mem_of_getElem? hi))) hr) hf
  refine ⟨found, ⟨fun qs hqs => ?_, hfound.ordered, ?_, ?_⟩⟩
  · obtain ⟨p, ps, rfl, hp, hps⟩ := hfound.chosen qs hqs
    exact ⟨⟨p, ps, ⟨routes, work, hroutes, hp⟩, hps⟩, rfl⟩
  · rintro _ ⟨⟨p, ps, ⟨routes', work', hroutes', hp⟩, hps⟩, rfl⟩
    cases hroutes.symm.trans hroutes'
    exact hfound.complete _ ⟨p, ps, rfl, hp, hps⟩
  · rw [List.reverse_reverse]
    exact hfound.found

theorem kept_transitions : Kept ts.reverse := by
  obtain ⟨found, hfound⟩ := transitions_explores h
  rw [hfound.found]
  exact Kept.foldl_more ⟨by simp, .nil⟩ _

/-- A transition that is kept is the first one that does the same. -/
theorem find?_alike {t : Transition} (ht : t ∈ ts) :
    ts.find? (fun u => decide (t.Alike u)) = some t := by
  have hdistinct := List.pairwise_reverse.mp (kept_transitions h).distinct
  obtain ⟨before, after, rfl⟩ := List.append_of_mem ht
  refine List.find?_eq_some_iff_append.mpr
    ⟨decide_eq_true ⟨rfl, fun _ => rfl⟩, before, after, rfl, fun u hu => ?_⟩
  have := (List.pairwise_append.mp hdistinct).2.2 u hu t List.mem_cons_self
  simpa using this

section Kinds

variable {P : Transition → Bool} (hnever : ∀ t, t.Never → P t = false)
  (hsame : ∀ t u, t.Alike u → P t = P u)
include hnever hsame

/-- Of a kind of transitions that can be taken there is one if there is such a choice, and the first
one is the first such choice. -/
theorem find?_transitions :
    ((∃ t ∈ ts, P t = true) ↔ ∃ a : Choice n s, P a.transition = true) ∧
    ∀ t, ts.find? P = some t → ∃ a : Choice n s, a.transition = t ∧
      a.First fun a => P a.transition = true := by
  obtain ⟨found, hfound⟩ := transitions_explores h
  have hfind : ts.find? P = (found.find? (P ∘ transitionOf n)).map (transitionOf n) := by
    have := find?_foldl_more hnever hsame [] (found.map (transitionOf n))
    rwa [← hfound.found, List.reverse_reverse, List.reverse_nil, List.nil_append,
      List.find?_map] at this
  have hmem (a : Choice n s) (ha : P a.transition = true) : a.picks ∈ found := by
    refine (hfound.complete a.picks ⟨a, rfl⟩).resolve_right fun hnot => ?_
    exact Bool.false_ne_true ((hnever _ hnot).symm.trans ha)
  constructor
  · rw [← List.find?_isSome, hfind, Option.isSome_map, List.find?_isSome]
    constructor
    · rintro ⟨ps, hps, hP⟩
      obtain ⟨a, rfl⟩ := hfound.chosen ps hps
      exact ⟨a, hP⟩
    · rintro ⟨a, ha⟩
      exact ⟨a.picks, hmem a ha, ha⟩
  · intro t ht
    rw [hfind, Option.map_eq_some_iff] at ht
    obtain ⟨ps, hps, rfl⟩ := ht
    obtain ⟨hP, before, after, rfl, hbefore⟩ := List.find?_eq_some_iff_append.mp hps
    obtain ⟨a, rfl⟩ := hfound.chosen ps (by simp)
    refine ⟨a, rfl, hP, fun b hb => ?_⟩
    rcases List.mem_append.mp (hmem b hb) with hin | hin
    · have hnot : P b.transition = false := (Bool.not_eq_true' _).mp (hbefore _ hin)
      exact absurd hb (Bool.eq_false_iff.mp hnot)
    · rcases List.mem_cons.mp hin with heq | hin
      · exact .inl (Choice.eq_of_picks heq.symm)
      · have hordered := (List.pairwise_append.mp hfound.ordered).2.1
        exact .inr ((List.pairwise_cons.mp hordered).1 _ hin)

end Kinds

/-- The transitions of a state combine its routes exactly: no choice is lost, and none is added or
comes out of order. -/
theorem transitions_combine : Combines n s ts := by
  have htest (target : Target) (next : Option Nat) := find?_transitions h
    (P := fun t => decide (t.target = target) && t.accepts next)
    (fun t ht => by simp only [ht next, Bool.and_false])
    (fun t u htu => by simp only [htu.1, htu.2 next])
  have hleads (target : Target) (next : Option Nat) (a : Choice n s) :
      (decide (a.transition.target = target) && a.transition.accepts next) = true ↔
        a.target = target ∧ a.Allows next := by
    rw [Bool.and_eq_true, decide_eq_true_eq, a.target_transition, a.accepts_transition]
  refine ⟨fun target next => ?_, fun t ht => ?_, fun target next t ht => ?_⟩
  · simpa only [hleads, Bool.and_eq_true, decide_eq_true_eq] using (htest target next).1
  · have htaken := (kept_transitions h).taken t (List.mem_reverse.mpr ht)
    obtain ⟨a, rfl, hfirst⟩ := (find?_transitions h (P := fun u => decide (t.Alike u))
      (fun u hu => decide_eq_false fun htu => htaken fun next => (htu.2 next).trans (hu next))
      (fun u v huv => decide_eq_decide.mpr ⟨(·.trans huv), (·.trans huv.symm)⟩)).2 t
        (find?_alike h ht)
    refine ⟨a, a.boundaries_transition, ?_⟩
    simpa only [decide_eq_true_eq, Choice.alike_transition] using hfirst
  · obtain ⟨a, rfl, hfirst⟩ := (htest target next).2 t ht
    refine ⟨a, a.boundaries_transition, ?_⟩
    simpa only [hleads] using hfirst

end Transitions

-- Four routes and two of the look-ahead make eight choices; two of them are kept.
set_option maxRecDepth 100000 in
theorem transitions_combine_lookAhead : ∃ (n : Nfa) (s : State) (routes : List Route) (work : Nat)
    (ts : List Transition), n.mainRoutes s = .ok (routes, work) ∧ routes.length = 4 ∧
      n.transitions s = .ok ts ∧ ts.length = 2 ∧ Combines n s ts := by
  obtain ⟨tree, htree⟩ := exists_ok
    (x := Pattern.parse "(?=(a|b)c)(?:(?=)|())(?:ac|b)" {} {} Property.standard) (by decide +kernel)
  obtain ⟨n, hn⟩ := exists_ok (x := Nfa.ofTree tree false 3500)
    (of_toOption (P := fun tree => (Nfa.ofTree tree false 3500).isOk) (by decide +kernel) htree)
  have hcheck := of_toOption (P := fun tree => ∀ n ∈ (Nfa.ofTree tree false 3500).toOption,
      (n.mainRoutes (n.initial ⟨false, ∅⟩)).isOk ∧ (n.transitions (n.initial ⟨false, ∅⟩)).isOk ∧
      (∀ found ∈ (n.mainRoutes (n.initial ⟨false, ∅⟩)).toOption, found.1.length = 4) ∧
      ∀ ts ∈ (n.transitions (n.initial ⟨false, ∅⟩)).toOption, ts.length = 2)
    (by decide +kernel) htree n (by rw [hn]; rfl)
  obtain ⟨hroutes, hts, hfour, htwo⟩ := hcheck
  obtain ⟨⟨routes, work⟩, hroutes⟩ := exists_ok hroutes
  obtain ⟨ts, hts⟩ := exists_ok hts
  exact ⟨n, n.initial ⟨false, ∅⟩, routes, work, ts, hroutes, of_toOption hfour hroutes, hts,
    of_toOption htwo hts, transitions_combine hts⟩

end PatternAutomata.Nfa
