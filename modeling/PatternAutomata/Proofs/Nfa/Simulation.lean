import PatternAutomata.Proofs.Backtrack.Leaves
import PatternAutomata.Proofs.Nfa.Combining
import PatternAutomata.Proofs.Nfa.Observing

/-!
# The automaton follows the preferred ways

From a state the automaton finds something exactly if the main pattern and all running look-aheads
have a way to go on. The boundaries that it finds then leave in each entry of the captures what the
preferred ways write there beside each other. This holds before the rest of the text if it holds
before what follows the next character.
-/

namespace PatternAutomata.Nfa

variable {n : Nfa} {x : Subject} {p : Nat}

/-! ## Entries -/

/-- What becomes of entry `i` when boundaries are applied one after the other. -/
def replayEntry : List Boundaries → Nat → Nat → Option Nat → Option Nat
  | [], _, _, e => e
  | b :: bs, position, i, e => replayEntry bs (position + 1) i (b.entry i position e)

theorem getElem?_replay (bs : List Boundaries) (position i : Nat) (captures : Captures) :
    (replay bs position captures)[i]? = captures[i]?.map (replayEntry bs position i) := by
  induction bs generalizing position captures with
  | nil => exact (Option.map_id' ..).symm
  | cons b bs ih =>
    rw [replay, ih, Boundaries.getElem?_apply, Option.map_map]
    rfl

theorem size_replay (bs : List Boundaries) (position : Nat) (captures : Captures) :
    (replay bs position captures).size = captures.size := by
  induction bs generalizing position captures with
  | nil => rfl
  | cons b bs ih => rw [replay, ih, Boundaries.size_apply]

/-- What the automaton finds from a state on. -/
def StateOutcome (n : Nfa) (x : Subject) (p : Nat) (s : State) (r : Option (List Boundaries)) :
    Prop :=
  r = none ∧ ¬((∀ id ∈ s.lookAheads, (Task.leave id).journal? n x p ≠ none) ∧
    s.mainJournal? n x p ≠ none) ∨
  (∀ id ∈ s.lookAheads, (Task.leave id).journal? n x p ≠ none) ∧
    ∃ bs j, r = some bs ∧ s.mainJournal? n x p = some j ∧ ∀ i e, Leaves j.own
      (fun ws => ws ∈ j.inner ∨ n.WrittenBy x p (s.lookAheads.map Task.leave) ws) i e
      (replayEntry bs p i e)

/-! ## Trying the transitions of combinations -/

namespace Combination

variable {c : Combination} {context : Context}

/-- The state that a combination leads to. -/
def nextState (n : Nfa) (context : Context) (c : Combination) : State :=
  { main := c.main.getD n.tree.matchFound, lookAheads := c.lookAheads, context }

theorem transition_final (hmain : c.main = none) (hlook : c.lookAheads = []) :
    c.transition n = ⟨.final, c.guard.allowed, c.guard.allowsEnd, c.boundaries⟩ := by
  unfold transition
  rw [hmain, hlook]

theorem transition_next (h : ¬(c.main = none ∧ c.lookAheads = [])) :
    c.transition n = ⟨.next (c.main.getD n.tree.matchFound) c.lookAheads,
      meet c.cls c.guard.allowed, false, c.boundaries⟩ := by
  unfold transition
  split
  · rename_i hmain hlook
    exact absurd ⟨hmain, hlook⟩ h
  · rfl

variable (hn : n.tree.WellFormed) (hc : c.Fits n.tree)
include hn hc

theorem mainJournal?_nextState (q : Nat) : (c.nextState n context).mainJournal? n x q =
    match c.main with
    | some id => (Task.leave id).journal? n x q
    | none => some {} := by
  unfold State.mainJournal? nextState
  cases hmain : c.main with
  | none => simp only [Option.getD_none, hn.matchFound]
  | some id =>
    obtain ⟨-, set, hk⟩ := hc.main id hmain
    simp only [Option.getD_some, hk]

theorem fits_nextState : (c.nextState n context).Fits n.tree := by
  refine ⟨?_, fun id hid => (hc.lookAheads id hid).1⟩
  unfold nextState
  cases hmain : c.main with
  | none => exact .inl hn.matchFound
  | some id => exact .inr (hc.main id hmain).1

theorem alive_iff (context : Context) : c.Alive n x p ↔ c.guard.holds x p = true ∧
    (∀ set, c.cls = some set → (x.after? p).any (fun a => set.contains a.toNat) = true) ∧
    (∀ id ∈ c.lookAheads, (Task.leave id).journal? n x (p + 1) ≠ none) ∧
    (c.nextState n context).mainJournal? n x (p + 1) ≠ none := by
  have hmain : (c.nextState n context).mainJournal? n x (p + 1) ≠ none ↔
      ∀ id, c.main = some id → (Task.leave id).journal? n x (p + 1) ≠ none := by
    rw [mainJournal?_nextState hn hc]
    cases c.main <;> simp
  rw [hmain]
  exact ⟨fun h => ⟨h.guard, h.cls, h.lookAheads, h.main⟩, fun h => ⟨h.1, h.2.1, h.2.2.2, h.2.2.1⟩⟩

end Combination

/-- At the end of the text a combination gives something exactly if it is alive. -/
theorem alive_iff_atEnd (hn : n.tree.WellFormed) (hafter : x.after? p = none) {c : Combination}
    (hc : c.Fits n.tree) : c.Alive n x p ↔ (c.transition n).atEnd ≠ none := by
  have hholds : c.guard.holds x p = c.guard.allowsEnd := by
    unfold Guard.holds
    rw [hafter]
  rw [Combination.alive_iff hn hc default, hholds, Combination.mainJournal?_nextState hn hc, hafter]
  unfold Transition.atEnd
  by_cases hfinal : c.main = none ∧ c.lookAheads = []
  · rw [Combination.transition_final hfinal.1 hfinal.2, hfinal.1, hfinal.2, hc.cls.mpr hfinal]
    simp
  · rw [Combination.transition_next hfinal]
    refine ⟨fun h => ?_, fun h => absurd rfl h⟩
    obtain ⟨set, hset⟩ := Option.ne_none_iff_exists'.mp (mt hc.cls.mp hfinal)
    exact absurd (h.2.1 set hset) Bool.false_ne_true

theorem judges_end (hn : n.tree.WellFormed) (hafter : x.after? p = none) :
    Judges n x p fun t r => r = t.atEnd where
  dead c hc hdead r hr := by
    rw [hr]
    exact Classical.byContradiction fun h => hdead ((alive_iff_atEnd hn hafter hc).mpr h)
  alive c hc halive r hr := by
    rw [hr]
    exact (alive_iff_atEnd hn hafter hc).mp halive
  never t _ hend := by
    unfold Transition.atEnd
    rw [hend]
    rfl
  same t u _ _ hend ht := by
    unfold Transition.atEnd at ht ⊢
    rw [← hend]
    split at ht
    · cases ht
    · rename_i hnot
      rw [if_neg hnot]

section Step

variable {a : Char} {next : State → Option (List Boundaries) → Prop} {tracker : BitSet}

/-- What trying the transition of a combination gives before the character `a`. -/
theorem tries_transition {c : Combination} {r : Option (List Boundaries)}
    (h : Transition.Tries n next tracker a (c.transition n) r) :
    (c.main = none ∧ c.lookAheads = [] ∧
      r = if c.guard.allowed.contains a.toNat then some [c.boundaries] else none) ∨
    ¬(c.main = none ∧ c.lookAheads = []) ∧
      if (Combination.meet c.cls c.guard.allowed).contains a.toNat then
        ∃ r', next (c.nextState n (n.contextOf false (n.lookBehinds.advance tracker a.toNat))) r' ∧
          r = r'.map (c.boundaries :: ·)
      else r = none := by
  by_cases hfinal : c.main = none ∧ c.lookAheads = []
  · rw [Combination.transition_final hfinal.1 hfinal.2] at h
    refine .inl ⟨hfinal.1, hfinal.2, ?_⟩
    unfold Transition.Tries at h
    simp only at h
    split at h
    · rename_i hc
      rw [if_pos hc, h]
    · rename_i hc
      rw [if_neg hc, h]
  · rw [Combination.transition_next hfinal] at h
    exact .inr ⟨hfinal, h⟩

/-- Before a character a combination gives nothing exactly if it is not alive. -/
theorem tries_eq_none_iff (hn : n.tree.WellFormed) (hafter : x.after? p = some a)
    (hnext : ∀ s r, s.Fits n.tree →
      s.context = n.contextOf false (n.lookBehinds.advance tracker a.toNat) → next s r →
      StateOutcome n x (p + 1) s r) {c : Combination} (hc : c.Fits n.tree)
    {r : Option (List Boundaries)} (hr : Transition.Tries n next tracker a (c.transition n) r) :
    r = none ↔ ¬c.Alive n x p := by
  have hholds : c.guard.holds x p = c.guard.allowed.contains a.toNat := by
    unfold Guard.holds
    rw [hafter]
  rw [Combination.alive_iff hn hc (n.contextOf false (n.lookBehinds.advance tracker a.toNat)),
    hholds, hafter]
  rcases tries_transition hr with ⟨hmain, hlook, rfl⟩ | ⟨hfinal, hr⟩
  · rw [Combination.mainJournal?_nextState hn hc, hmain, hlook, hc.cls.mpr ⟨hmain, hlook⟩]
    simp
  · rw [← and_assoc, and_comm (a := c.guard.allowed.contains a.toNat = true)]
    simp only [Option.any_some, ← Combination.contains_meet]
    split at hr
    · rename_i hcontains
      obtain ⟨r', hr', rfl⟩ := hr
      rw [Option.map_eq_none_iff]
      have hout : StateOutcome n x (p + 1)
          (c.nextState n (n.contextOf false (n.lookBehinds.advance tracker a.toNat))) r' :=
        hnext _ _ (Combination.fits_nextState hn hc) rfl hr'
      rcases hout with ⟨rfl, hnot⟩ | ⟨hall, bs, j, rfl, hj, -⟩
      · exact ⟨fun _ h => hnot h.2, fun _ => rfl⟩
      · refine ⟨fun h => absurd h (Option.some_ne_none _), fun h => absurd ⟨hcontains, hall, ?_⟩ h⟩
        rw [hj]
        exact Option.some_ne_none _
    · rename_i hcontains
      exact ⟨fun _ h => hcontains h.1, fun _ => hr⟩

theorem judges_step (hn : n.tree.WellFormed) (hafter : x.after? p = some a)
    (hnext : ∀ s r, s.Fits n.tree →
      s.context = n.contextOf false (n.lookBehinds.advance tracker a.toNat) → next s r →
      StateOutcome n x (p + 1) s r) : Judges n x p (Transition.Tries n next tracker a) where
  dead c hc hdead r hr := (tries_eq_none_iff hn hafter hnext hc hr).mpr hdead
  alive c hc halive r hr hnone := (tries_eq_none_iff hn hafter hnext hc hr).mp hnone halive
  never t hempty _ := by
    unfold Transition.Tries
    rw [if_neg (by rw [CodePointSet.isEmpty_iff_contains.mp hempty]; exact Bool.false_ne_true)]
  same t u htarget hcls _ ht := by
    unfold Transition.Tries at ht ⊢
    rw [← hcls, ← htarget]
    split at ht
    · rename_i hcontains
      rw [if_pos hcontains]
      cases htarget' : t.target with
      | final =>
        rw [htarget'] at ht
        cases ht
      | next main lookAheads =>
        rw [htarget'] at ht
        obtain ⟨r', hr', hnone⟩ := ht
        cases Option.map_eq_none_iff.mp hnone.symm
        exact ⟨none, hr', rfl⟩
    · rename_i hcontains
      rw [if_neg hcontains]

end Step

/-! ## What a choice writes -/

/-- What is written on the trail of an ending. -/
def Ending.written (n : Nfa) (x : Subject) (p : Nat) (e : Ending) : Journal :=
  (e.trail.journal? n x p).getD {}

/-- What is written after the goal of an ending. -/
def Ending.later (n : Nfa) (x : Subject) (p : Nat) (e : Ending) : Journal :=
  (e.goal.journal? n x p).getD {}

/-- An ending that has a journal. -/
structure Ending.Picked (n : Nfa) (x : Subject) (p : Nat) (e : Ending) : Prop where
  fits : e.Fits n.tree
  wrote : e.trail.Wrote n x p (e.written n x p)
  goal : e.goal.journal? n x p = some (e.later n x p)
  journal : e.journal? n x p = some ((e.later n x p).after (e.written n x p))

theorem writtenBy_append {ts us : List Task} {ws : List Write} :
    n.WrittenBy x p (ts ++ us) ws ↔ n.WrittenBy x p ts ws ∨ n.WrittenBy x p us ws := by
  unfold WrittenBy
  simp only [List.mem_append, or_and_right, exists_or]

theorem writtenBy_spawned {e : Ending} {ws : List Write} :
    n.WrittenBy x p (e.trail.spawned.map (runTask n)) ws ↔
      n.WrittenBy x p (e.spawnedTasks n) ws := by
  unfold WrittenBy Ending.spawnedTasks
  simp only [List.mem_map, List.mem_reverse]

section Picked

variable (hn : n.tree.WellFormed)
  (hahead : ∀ id l, n.tree.InPattern id → n.tree.kind id = .look l → l.direction = .ahead →
    l.negated = false)
include hn

theorem Task.journal?_from {id : NodeId} {j : Journal}
    (h : (Task.leave id).journal? n x p = some j) : j.From p := by
  rw [Task.journal?_leave, Option.map_eq_some_iff] at h
  obtain ⟨s, hs, rfl⟩ := h
  exact (Tree.alike_goOn hn Tree.keeps_from).memory (Nat.le_refl p) ⟨by simp, by simp⟩
    (List.mem_of_head? hs)

namespace Ending

variable {e : Ending}

/-- After a class its own preferred way goes on, and after the end of the match nothing is
written. -/
theorem Picked.later_eq (h : e.Picked n x p) :
    (∃ id, e.goal = .consume id ∧
      (Task.leave id).journal? n x (p + 1) = some (e.later n x p)) ∨
    e.goal = .done ∧ e.later n x p = {} := by
  have hgoal := h.goal
  cases hg : e.goal with
  | done =>
    rw [hg, Goal.journal?_done] at hgoal
    exact .inr ⟨rfl, (Option.some.inj hgoal).symm⟩
  | consume id =>
    have hfits := h.fits.goal
    rw [hg] at hfits hgoal
    obtain ⟨-, set, hk⟩ := hfits
    rw [Goal.journal?_consume hn hk] at hgoal
    split at hgoal
    · exact .inl ⟨id, rfl, hgoal⟩
    · cases hgoal

theorem Picked.later_position (h : e.Picked n x p) : (e.later n x p).From (p + 1) := by
  rcases h.later_eq hn with ⟨id, -, hj⟩ | ⟨-, hj⟩
  · exact Task.journal?_from hn hj
  · rw [hj]
    exact ⟨by simp, by simp⟩

include hahead in
theorem picked_of_journal? (he : e.Fits n.tree) {j : Journal} (h : e.journal? n x p = some j) :
    e.Picked n x p ∧ j = (e.later n x p).after (e.written n x p) := by
  obtain ⟨written, later, htrail, hwrote, hgoal, rfl⟩ := journal?_eq_some hn hahead he h
  have hwritten : e.written n x p = written := by rw [Ending.written, htrail, Option.getD_some]
  have hlater : e.later n x p = later := by rw [Ending.later, hgoal, Option.getD_some]
  refine ⟨⟨he, by rw [hwritten]; exact hwrote, by rw [hlater]; exact hgoal, ?_⟩, ?_⟩
  · rw [h, hlater, hwritten]
  · rw [hlater, hwritten]

end Ending

include hahead in
/-- What the tasks write is what the endings picked for them write, now and later. -/
theorem Picks.writtenBy {todo : List Task} {es : List Ending} (h : Picks n x p todo es) :
    (∀ e ∈ es, e.Picked n x p) ∧ ∀ ws, n.WrittenBy x p todo ws ↔
      ∃ e ∈ es, ws = (e.later n x p).own ++ (e.written n x p).own ∨ ws ∈ (e.later n x p).inner := by
  induction h with
  | nil => exact ⟨by simp, fun ws => by simp [WrittenBy]⟩
  | @cons task todo e es j hfits htask he _ ih =>
    obtain ⟨hpicked, rfl⟩ := Ending.picked_of_journal? hn hahead hfits he
    refine ⟨List.forall_mem_cons.mpr ⟨hpicked, ih.1⟩, fun ws => ?_⟩
    simp only [writtenBy_cons htask, List.mem_cons, or_and_right, exists_or, exists_eq_left,
      ← ih.2 ws, writtenBy_append, ← writtenBy_spawned, ← hpicked.wrote.inner ws]
    simp only [Journal.after, List.mem_append]
    grind

end Picked

/-! ## From one position to the next -/

section Choice

variable {e : Ending} {es : List Ending} {c : Combination}

theorem main_ofMain (e : Ending) :
    (Combination.ofMain n (e.route n)).main = match e.goal with
      | .consume id => some id
      | .done => none := rfl

/-- What the boundaries of a choice do to an entry. -/
theorem entry_of_picked (he : e.Picked n x p) (hes : ∀ e ∈ es, e.Picked n x p)
    (hadds : (Combination.ofMain n (e.route n)).Adds n p es c) (i : Nat) (v : Option Nat) :
    c.boundaries.entry i p v = valueAfter i v ((e.written n x p).own ::
      (es.map fun e => ((e.later n x p).own, (e.written n x p).own)).map Prod.snd) := by
  have hmain : (Combination.ofMain n (e.route n)).boundaries.entry i p v =
      (lastWrite i (e.written n x p).own).elim v Write.value := by
    rw [← he.wrote.tells.entry]
    exact (Boundaries.entry_merge ..).trans (by rw [← Boundaries.empty, Boundaries.entry_empty]; rfl)
  rw [hadds.entry, hmain]
  unfold valueAfter
  rw [List.foldl_cons, List.map_map, List.foldl_map]
  exact List.foldl_ext _ _ _ fun v e he => (hes e he).wrote.tells.entry i v

variable (hn : n.tree.WellFormed)
  (hahead : ∀ id l, n.tree.InPattern id → n.tree.kind id = .look l → l.direction = .ahead →
    l.negated = false)
include hn

/-- The journal with which the main pattern goes on after a choice. -/
theorem mainJournal?_of_picked (he : e.Picked n x p)
    (hadds : (Combination.ofMain n (e.route n)).Adds n p es c) (hc : c.Fits n.tree)
    (context : Context) :
    (c.nextState n context).mainJournal? n x (p + 1) = some (e.later n x p) := by
  rw [Combination.mainJournal?_nextState hn hc, hadds.main, main_ofMain]
  rcases he.later_eq hn with ⟨id, hg, hj⟩ | ⟨hg, hj⟩
  · rw [hg]
    exact hj
  · rw [hg, hj]

/-- What look-aheads write later that go on after a choice. -/
theorem writtenBy_of_picked (hes : ∀ e ∈ es, e.Picked n x p)
    (hadds : (Combination.ofMain n (e.route n)).Adds n p es c) (ws : List Write) :
    n.WrittenBy x (p + 1) (c.lookAheads.map Task.leave) ws ↔
      ∃ e ∈ es, e.goal ≠ .done ∧ (ws = (e.later n x p).own ∨ ws ∈ (e.later n x p).inner) := by
  unfold WrittenBy
  constructor
  · rintro ⟨task, htask, j, hj, hws⟩
    obtain ⟨id, hid, rfl⟩ := List.mem_map.mp htask
    obtain ⟨e', he', hg⟩ := ((hadds.lookAheads id).mp hid).resolve_left List.not_mem_nil
    rcases (hes e' he').later_eq hn with ⟨id', hg', hj'⟩ | ⟨hg', -⟩
    · cases hg.symm.trans hg'
      cases hj.symm.trans hj'
      exact ⟨e', he', by rw [hg]; exact nofun, hws⟩
    · rw [hg] at hg'
      cases hg'
  · rintro ⟨e', he', hg, hws⟩
    rcases (hes e' he').later_eq hn with ⟨id, hg', hj'⟩ | ⟨hg', -⟩
    · exact ⟨_, List.mem_map_of_mem ((hadds.lookAheads id).mpr (.inr ⟨e', he', hg'⟩)), _, hj', hws⟩
    · exact absurd hg' hg

include hahead in
theorem precedes_of_picked {s : State} (he : e.Picked n x p)
    (hpicks : Picks n x p (s.lookAheads.map Task.leave ++ e.spawnedTasks n) es)
    (hadds : (Combination.ofMain n (e.route n)).Adds n p es c) :
    Precedes p (e.written n x p).own
      (es.map fun e => ((e.later n x p).own, (e.written n x p).own))
      ((e.later n x p).after (e.written n x p)).own (e.later n x p).own
      (fun ws => ws ∈ ((e.later n x p).after (e.written n x p)).inner ∨
        n.WrittenBy x p (s.lookAheads.map Task.leave) ws)
      (fun ws => ws ∈ (e.later n x p).inner ∨
        n.WrittenBy x (p + 1) (c.lookAheads.map Task.leave) ws) := by
  obtain ⟨hes, hwritten⟩ := hpicks.writtenBy hn hahead
  have hinner : ∀ ws, (ws ∈ ((e.later n x p).after (e.written n x p)).inner ∨
      n.WrittenBy x p (s.lookAheads.map Task.leave) ws) ↔ ws ∈ (e.later n x p).inner ∨ ∃ e ∈ es,
        ws = (e.later n x p).own ++ (e.written n x p).own ∨ ws ∈ (e.later n x p).inner := by
    intro ws
    rw [← hwritten, writtenBy_append, ← writtenBy_spawned, ← he.wrote.inner ws, Journal.after,
      List.mem_append, or_assoc, or_comm (a := ws ∈ (e.written n x p).inner)]
  have hlater := writtenBy_of_picked hn hes hadds
  -- What look-aheads write later on, they write after a class.
  have hgoal : ∀ e ∈ es, ∀ ws ∈ (e.later n x p).inner, e.goal ≠ .done := by
    intro e he ws hws hdone
    rcases (hes e he).later_eq hn with ⟨id, hg, -⟩ | ⟨-, hj⟩
    · cases hg.symm.trans hdone
    · rw [hj] at hws
      cases hws
  refine ⟨rfl, fun ws hws => ?_, fun ws hws => ?_, ?_, ?_, he.wrote.tells.position, ?_,
    (he.later_position hn).own, ?_⟩
  · rcases (hinner ws).mp hws with hws | ⟨e', he', rfl | hws⟩
    · exact .inl (.inl hws)
    · exact .inr ⟨_, List.mem_map_of_mem he', rfl⟩
    · exact .inl (.inr ((hlater ws).mpr ⟨e', he', hgoal e' he' ws hws, .inr hws⟩))
  · rcases hws with hws | hws
    · exact .inl ((hinner ws).mpr (.inl hws))
    · obtain ⟨e', he', -, rfl | hws⟩ := (hlater ws).mp hws
      · exact .inr ⟨_, List.mem_map_of_mem he', rfl⟩
      · exact .inl ((hinner ws).mpr (.inr ⟨e', he', .inr hws⟩))
  · exact List.forall_mem_map.mpr fun e' he' => (hinner _).mpr (.inr ⟨e', he', .inl rfl⟩)
  · refine List.forall_mem_map.mpr fun e' he' => ?_
    rcases (hes e' he').later_eq hn with ⟨id, hg, -⟩ | ⟨-, hj⟩
    · have hgoal' : e'.goal ≠ .done := by
        rw [hg]
        intro h
        cases h
      exact .inr (.inr ((hlater _).mpr ⟨e', he', hgoal', .inl rfl⟩))
    · exact .inl (by rw [hj])
  · exact List.forall_mem_map.mpr fun e' he' => (hes e' he').wrote.tells.position
  · rintro ws (hws | hws) w hw
    · exact (he.later_position hn).inner ws hws w hw
    · obtain ⟨e', he', -, rfl | hws⟩ := (hlater ws).mp hws
      · exact ((hes e' he').later_position hn).own w hw
      · exact ((hes e' he').later_position hn).inner ws hws w hw

/-- Once all goals are the end of the match nothing is written later. -/
theorem leaves_of_final (he : e.Picked n x p)
    (hadds : (Combination.ofMain n (e.route n)).Adds n p es c) (hc : c.Fits n.tree)
    (hmain : c.main = none) (hlook : c.lookAheads = []) (i : Nat) (v : Option Nat) :
    Leaves (e.later n x p).own (fun ws => ws ∈ (e.later n x p).inner ∨
      n.WrittenBy x (p + 1) (c.lookAheads.map Task.leave) ws) i v v := by
  have hlater := mainJournal?_of_picked hn he hadds hc default
  rw [Combination.mainJournal?_nextState hn hc, hmain] at hlater
  rw [← Option.some.inj hlater, hlook]
  refine .nothing rfl fun ws hws => ?_
  rcases hws with hws | ⟨_, htask, -⟩
  · cases hws
  · cases htask

end Choice

section Finds

variable (hn : n.tree.WellFormed)
  (hx : ∀ p ≤ x.text.length, n.Observes x p (n.contextAfter (x.text.take p)))
include hn hx

/-- A transition that gives something leaves what the choice in it writes. -/
theorem stateOutcome_of_some {s : State} {A : Transition → Option (List Boundaries) → Prop}
    {r : Option (List Boundaries)} {ts : List Transition} (hp : p ≤ x.text.length)
    (hs : s.Fits n.tree) (hcontext : s.context = n.contextAfter (x.text.take p))
    (hA : Judges n x p A) (hts : n.transitions s = .ok ts) (hr : FirstOf A ts r)
    (hsome : ∀ (c : Combination) (later : Journal), c.Fits n.tree → c.Alive n x p →
      (∀ context, (c.nextState n context).mainJournal? n x (p + 1) = some later) →
      (c.main = none → c.lookAheads = [] → ∀ i v, Leaves later.own (fun ws => ws ∈ later.inner ∨
        n.WrittenBy x (p + 1) (c.lookAheads.map Task.leave) ws) i v v) →
      r ≠ none → A (c.transition n) r → ∃ bs, r = some bs ∧ ∀ i e, Leaves later.own
        (fun ws => ws ∈ later.inner ∨
          n.WrittenBy x (p + 1) (c.lookAheads.map Task.leave) ws) i
        (c.boundaries.entry i p e) (replayEntry bs p i e)) :
    StateOutcome n x p s r := by
  have hobserves : n.Observes x p s.context := hcontext ▸ hx p hp
  rcases transitions_outcome hA hn hs hobserves hts hr with hnone |
    ⟨hne, hall, e, j, he, hmain, hj, es, c, hpicks, hadds, hc, halive, ht⟩
  · exact .inl hnone
  · obtain ⟨hpicked, rfl⟩ := Ending.picked_of_journal? hn hobserves.ahead he hj
    obtain ⟨bs, rfl, hleaves⟩ := hsome c _ hc halive
      (mainJournal?_of_picked hn hpicked hadds hc) (leaves_of_final hn hpicked hadds hc) hne ht
    refine .inr ⟨hall, bs, _, rfl, hmain, fun i e => ?_⟩
    refine (precedes_of_picked hn hobserves.ahead hpicked hpicks hadds).leaves ?_
    rw [← entry_of_picked hpicked (hpicks.writtenBy hn hobserves.ahead).1 hadds]
    exact hleaves i e

/-- At the end of the text nothing follows. -/
theorem stateOutcome_end (hafter : x.after? p = none) (hp : p ≤ x.text.length) {s : State}
    (hs : s.Fits n.tree) (hcontext : s.context = n.contextAfter (x.text.take p))
    {ts : List Transition} {r : Option (List Boundaries)} (hts : n.transitions s = .ok ts)
    (hr : FirstOf (fun t r => r = t.atEnd) ts r) : StateOutcome n x p s r := by
  refine stateOutcome_of_some hn hx hp hs hcontext (judges_end hn hafter) hts hr
    fun c later hc _ _ hfinal hne ht => ?_
  by_cases hend : c.main = none ∧ c.lookAheads = []
  · rw [Combination.transition_final hend.1 hend.2, Transition.atEnd] at ht
    split at ht
    · exact ⟨_, ht, fun i e => hfinal hend.1 hend.2 i _⟩
    · exact absurd ht hne
  · rw [Combination.transition_next hend] at ht
    exact absurd ht hne

/-- What the automaton finds before a character is what it finds after it, with one more transition. -/
theorem stateOutcome_step {a : Char} {tracker : BitSet}
    {next : State → Option (List Boundaries) → Prop} (hafter : x.after? p = some a)
    (hp : p ≤ x.text.length) (hnext : ∀ s r, s.Fits n.tree →
      s.context = n.contextOf false (n.lookBehinds.advance tracker a.toNat) → next s r →
      StateOutcome n x (p + 1) s r) {s : State} (hs : s.Fits n.tree)
    (hcontext : s.context = n.contextAfter (x.text.take p)) {ts : List Transition}
    {r : Option (List Boundaries)} (hts : n.transitions s = .ok ts)
    (hr : FirstOf (Transition.Tries n next tracker a) ts r) : StateOutcome n x p s r := by
  refine stateOutcome_of_some hn hx hp hs hcontext (judges_step hn hafter hnext) hts hr
    fun c later hc _ hlater hfinal hne ht => ?_
  rcases tries_transition ht with ⟨hmain, hlook, hif⟩ | ⟨hend, hif⟩
  · split at hif
    · exact ⟨_, hif, fun i e => hfinal hmain hlook i _⟩
    · exact absurd hif hne
  · split at hif
    · obtain ⟨r', hr', rfl⟩ := hif
      rcases hnext _ _ (Combination.fits_nextState hn hc) rfl hr' with ⟨rfl, -⟩ |
        ⟨-, bs, j, rfl, hj, hleaves⟩
      · exact absurd rfl hne
      · cases hj.symm.trans (hlater _)
        exact ⟨_, rfl, fun i e => hleaves i _⟩
    · exact absurd hif hne

omit hn hx in
theorem advance_after_take (hlt : p < x.text.length) :
    n.lookBehinds.advance (n.lookBehinds.after (x.text.take p)) x.text[p].toNat =
      n.lookBehinds.after (x.text.take (p + 1)) := by
  rw [List.take_succ_eq_append_getElem hlt, LookBehindTable.after_append_singleton]

omit hn hx in
theorem contextOf_after_take (hlt : p < x.text.length) :
    n.contextOf false (n.lookBehinds.after (x.text.take (p + 1))) =
      n.contextAfter (x.text.take (p + 1)) := by
  have hempty : (x.text.take (p + 1)).isEmpty = false := by
    rw [List.take_succ_eq_append_getElem hlt, List.isEmpty_eq_false_iff]
    exact List.append_ne_nil_of_right_ne_nil _ (List.cons_ne_nil _ _)
  rw [contextAfter, hempty, Bool.false_and]

/-- The automaton finds what the preferred ways leave. -/
theorem finds_outcome {rest : List Char} {s : State} {r : Option (List Boundaries)}
    (hrest : x.text.drop p = rest) (hp : p ≤ x.text.length) (hs : s.Fits n.tree)
    (hcontext : s.context = n.contextAfter (x.text.take p))
    (h : n.Finds rest (n.lookBehinds.after (x.text.take p)) s r) : StateOutcome n x p s r := by
  induction rest generalizing p s r with
  | nil =>
    obtain ⟨ts, hts, hr⟩ := h
    have hafter : x.after? p = none := List.getElem?_eq_none_iff.mpr (List.drop_eq_nil_iff.mp hrest)
    exact stateOutcome_end hn hx hafter hp hs hcontext hts hr
  | cons a rest ih =>
    obtain ⟨ts, hts, hr⟩ := h
    have hlt : p < x.text.length := by
      rw [← Nat.not_le, ← List.drop_eq_nil_iff, hrest]
      exact List.cons_ne_nil _ _
    rw [List.drop_eq_getElem_cons hlt, List.cons.injEq] at hrest
    obtain ⟨rfl, hrest⟩ := hrest
    refine stateOutcome_step hn hx (List.getElem?_eq_getElem hlt) hp
      (fun s r hs hcontext hfinds => ?_) hs hcontext hts hr
    rw [advance_after_take hlt] at hcontext hfinds
    exact ih hrest hlt hs (hcontext.trans (contextOf_after_take hlt)) hfinds

end Finds

end PatternAutomata.Nfa
