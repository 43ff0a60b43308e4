import PatternAutomata.Proofs.Dfa.Discovery

/-!
# One step of the construction

A step makes the moves of all threads. Of the moves before the first that matches, only the first
one into a state counts: `arrived` lists them as the construction goes through them, the last one
first. The threads and the updates of a step realize them one by one.
-/

namespace PatternAutomata.Dfa

variable {n : Nfa}

/-- The threads that a state stands for. -/
def Key.threads : Key → List Thread
  | .search threads _ _ => threads
  | _ => []

namespace Build

/-! ## Arrivals -/

/-- A thread after a character: its state, and the move that led there unless it begins there. -/
structure Arrival where
  state : Nfa.State
  move : Option Move

namespace Arrival

def boundaries (a : Arrival) : Boundaries := a.move.elim .empty (·.transition.boundaries)

/-- Adds an arrival, unless there is one with its state. -/
def join (as : List Arrival) (a : Arrival) : List Arrival :=
  if as.any (·.state = a.state) then as else a :: as

end Arrival

/-- Where the moves before the first that matches lead. -/
def arrivals (context : Context) : List Move → List Arrival
  | [] => []
  | m :: moves =>
    match m.transition.target with
    | .final => []
    | .next main lookAheads => ⟨{ main, lookAheads, context }, some m⟩ :: arrivals context moves

/-- The first move that matches. -/
def firstFinal (moves : List Move) : Option Move := moves.find? (·.transition.target = .final)

/-! ## Realizing them -/

/-- The thread `t`, and the update of its slot, are those of the arrival. -/
structure Realizes (d : Discovered n) (a : Arrival) (t : Thread) (u : Option SlotUpdate) : Prop where
  state : d.states.state? t.state = some a.state
  tracked : d.traced? = none → t.captures = #[] ∧ ∃ b,
    u = some { origin := a.move.map Move.slot, boundaries := b } ∧
      d.boundaries.get? b = some a.boundaries
  traced : ∀ groups, d.traced? = some groups → u = none ∧
    t.captures = a.move.elim (.fresh groups) fun m =>
      m.thread.captures.advance m.transition.boundaries

/-- Threads and updates, one of each for every arrival. -/
inductive Realized (d : Discovered n) : List Arrival → List Thread → List SlotUpdate → Prop
  | nil : Realized d [] [] []
  | cons {a : Arrival} {t : Thread} {u : Option SlotUpdate} {as : List Arrival}
    {ts : List Thread} {us : List SlotUpdate} (h : Realizes d a t u) (rest : Realized d as ts us) :
    Realized d (a :: as) (t :: ts) (u.toList ++ us)

/-- The accept `x` reports the match of the move `m`. -/
structure Reports (d : Discovered n) (m : Move) (x : Accept) : Prop where
  tracked : d.traced? = none → ∃ b, x = .slot m.slot b ∧
    d.boundaries.get? b = some m.transition.boundaries
  traced : ∀ groups, d.traced? = some groups → ∃ i, x = .result i ∧
    d.result? i = some (m.thread.captures.record m.transition.boundaries)

section Extends

variable {d d' : Discovered n} {a : Arrival} {t : Thread} {u : Option SlotUpdate} {m : Move}
  {x : Accept} {as : List Arrival} {ts : List Thread} {us : List SlotUpdate}

theorem Realizes.mono (h : Realizes d a t u) (hd : d.Extends d') : Realizes d' a t u where
  state := hd.states _ _ h.state
  tracked hn := by
    obtain ⟨hc, b, hu, hb⟩ := h.tracked (hd.traced ▸ hn)
    exact ⟨hc, b, hu, hd.boundaries _ _ hb⟩
  traced groups hg := h.traced groups (hd.traced ▸ hg)

theorem Realized.mono (h : Realized d as ts us) (hd : d.Extends d') : Realized d' as ts us := by
  induction h with
  | nil => exact .nil
  | cons h _ ih => exact .cons (h.mono hd) ih

theorem Reports.mono (h : Reports d m x) (hd : d.Extends d') : Reports d' m x where
  tracked hn := by
    obtain ⟨b, hx, hb⟩ := h.tracked (hd.traced ▸ hn)
    exact ⟨b, hx, hd.boundaries _ _ hb⟩
  traced groups hg := by
    obtain ⟨i, hx, hi⟩ := h.traced groups (hd.traced ▸ hg)
    exact ⟨i, hx, hd.results _ _ hi⟩

/-- A state has one number, so threads meet exactly when their states do. -/
theorem Realized.hasThread (h : Realized d as ts us) {i : Nat} {s : Nfa.State}
    (hi : d.states.state? i = some s) :
    ts.any (·.state == i) = as.any (·.state = s) := by
  induction h with
  | nil => rfl
  | @cons a t _ _ _ _ h _ ih =>
    have hiff : (t.state == i) = decide (a.state = s) := by
      rw [Bool.eq_iff_iff, beq_iff_eq, decide_eq_true_eq]
      constructor
      · rintro rfl
        exact Option.some_inj.mp (h.state.symm.trans hi)
      · intro has
        exact Interner.get?_inj h.state (has ▸ hi)
    rw [List.any_cons, List.any_cons, ih, hiff]

theorem Realized.length_eq (h : Realized d as ts us) : as.length = ts.length := by
  induction h with
  | nil => rfl
  | cons _ _ ih => simp [ih]

theorem Realized.mem_thread (h : Realized d as ts us) (ht : t ∈ ts) :
    ∃ a ∈ as, ∃ u, Realizes d a t u := by
  induction h with
  | nil => cases ht
  | cons h _ ih =>
    rcases List.mem_cons.mp ht with rfl | ht
    · exact ⟨_, by simp, _, h⟩
    · obtain ⟨a, ha, u, hu⟩ := ih ht
      exact ⟨a, by simp [ha], u, hu⟩

end Extends

/-! ## Parts of a step -/

section Parts

variable {d d' : Discovered n} {s s' : Step} {as : List Arrival}

theorem traced?_of_tracer (h : d.tracer = none) : d.traced? = none := by
  rw [Discovered.traced?, h]
  rfl

theorem traced?_of_tracer_eq_some {finder : TraceFinder} (h : d.tracer = some finder) :
    d.traced? = some finder.groups := by
  rw [Discovered.traced?, h]
  rfl

theorem realizes_of_tracked {a : Arrival} {t : Thread} {b : Nat} (hn : d.traced? = none)
    (hi : d.states.state? t.state = some a.state) (hc : t.captures = #[])
    (hb : d.boundaries.get? b = some a.boundaries) :
    Realizes d a t (some { origin := a.move.map Move.slot, boundaries := b }) where
  state := hi
  tracked _ := ⟨hc, b, rfl, hb⟩
  traced _ hg := by cases hn.symm.trans hg

theorem realizes_of_traced {a : Arrival} {t : Thread} {groups : Nat}
    (hg : d.traced? = some groups) (hi : d.states.state? t.state = some a.state)
    (hc : t.captures = a.move.elim (.fresh groups) fun m =>
      m.thread.captures.advance m.transition.boundaries) : Realizes d a t none where
  state := hi
  tracked hn := by cases hg.symm.trans hn
  traced _ hg' := by
    cases hg.symm.trans hg'
    exact ⟨rfl, hc⟩

/-- Whether an arrival joins the others is told by the threads that realize them. -/
theorem Realized.join_eq {a : Arrival} {i : Nat} (h : Realized d as s.threads s.updates)
    (hi : d.states.state? i = some a.state) :
    Arrival.join as a = if s.hasThread i then as else a :: as := by
  rw [show s.hasThread i = as.any (·.state = a.state) from h.hasThread hi, Arrival.join]

theorem accept_gives {slot : Nat} {t : Thread} {tr : Nfa.Transition} {x : Accept}
    (h : Gives (accept slot t tr.boundaries) d x d') :
    d.Extends d' ∧ d'.keys = d.keys ∧ Reports d' ⟨slot, t, tr⟩ x := by
  unfold accept at h
  rw [gives_get_bind] at h
  cases htr : d.tracer with
  | none =>
    simp only [htr] at h
    obtain ⟨b, d2, hb, hp⟩ := gives_bind.mp h
    obtain ⟨rfl, rfl⟩ := gives_pure.mp hp
    obtain ⟨he, hk, hb⟩ := internBoundaries_gives hb
    have hn := he.traced.trans (traced?_of_tracer htr)
    refine ⟨he, hk, ⟨fun _ => ⟨b, rfl, hb⟩, fun g hg => ?_⟩⟩
    cases hn.symm.trans hg
  | some finder =>
    simp only [htr] at h
    obtain ⟨i, d2, hi, hp⟩ := gives_bind.mp h
    obtain ⟨rfl, rfl⟩ := gives_pure.mp hp
    obtain ⟨he, hk, hr⟩ := internResult_gives htr hi
    have hg := he.traced.trans (traced?_of_tracer_eq_some htr)
    refine ⟨he, hk, ⟨fun hn => ?_, fun _ _ => ⟨i, rfl, hr⟩⟩⟩
    cases hg.symm.trans hn

theorem advance_gives {m : Move} {target : Nfa.State} (h : Gives (advance s m target) d s' d')
    (hs : Realized d as s.threads s.updates) :
    d.Extends d' ∧ d'.keys = d.keys ∧ s'.accept = s.accept ∧
      Realized d' (Arrival.join as ⟨target, some m⟩) s'.threads s'.updates := by
  obtain ⟨i, d1, hi, h⟩ := gives_bind.mp h
  obtain ⟨he, hk, hi⟩ := internState_gives hi
  have hs := hs.mono he
  rw [hs.join_eq hi]
  cases hmeet : s.hasThread i with
  | true =>
    rw [hmeet, if_pos rfl] at h
    obtain ⟨rfl, rfl⟩ := gives_pure.mp h
    exact ⟨he, hk, rfl, hs⟩
  | false =>
    rw [hmeet, if_neg Bool.false_ne_true, gives_get_bind] at h
    cases htr : d1.tracer with
    | none =>
      simp only [htr] at h
      obtain ⟨b, d2, hb, hp⟩ := gives_bind.mp h
      obtain ⟨rfl, rfl⟩ := gives_pure.mp hp
      obtain ⟨he', hk', hb⟩ := internBoundaries_gives hb
      have hn := he'.traced.trans (traced?_of_tracer htr)
      refine ⟨he.trans he', hk'.trans hk, rfl, .cons ?_ (hs.mono he')⟩
      exact realizes_of_tracked hn (he'.states _ _ hi) rfl hb
    | some finder =>
      simp only [htr] at h
      obtain ⟨rfl, rfl⟩ := gives_pure.mp h
      exact ⟨he, hk, rfl, .cons (realizes_of_traced (traced?_of_tracer_eq_some htr) hi rfl) hs⟩

theorem makeMoves_gives {context : Context} {moves : List Move}
    (h : Gives (makeMoves context moves s) d s' d') (hs : Realized d as s.threads s.updates) :
    d.Extends d' ∧ d'.keys = d.keys ∧
      Realized d' ((arrivals context moves).foldl Arrival.join as) s'.threads s'.updates ∧
      match firstFinal moves with
      | none => s'.accept = s.accept
      | some m => ∃ x, s'.accept = some x ∧ Reports d' m x := by
  induction moves generalizing s d as with
  | nil =>
    obtain ⟨rfl, rfl⟩ := gives_pure.mp h
    exact ⟨.refl _, rfl, hs, rfl⟩
  | cons m moves ih =>
    unfold makeMoves at h
    unfold arrivals firstFinal
    cases ht : m.transition.target with
    | final =>
      simp only [ht] at h
      obtain ⟨x, d1, hx, hp⟩ := gives_bind.mp h
      obtain ⟨rfl, rfl⟩ := gives_pure.mp hp
      obtain ⟨he, hk, hr⟩ := accept_gives hx
      rw [List.find?_cons_of_pos (by simp [ht])]
      exact ⟨he, hk, hs.mono he, x, rfl, hr⟩
    | next main lookAheads =>
      simp only [ht] at h
      obtain ⟨s1, d1, hadv, h⟩ := gives_bind.mp h
      obtain ⟨he, hk, ha, hs1⟩ := advance_gives hadv hs
      obtain ⟨he', hk', hs', hacc⟩ := ih h hs1
      rw [List.find?_cons_of_neg (by simp [ht])]
      refine ⟨he.trans he', hk'.trans hk, hs', ?_⟩
      rw [← ha]
      exact hacc

theorem initialThread_gives {context : Context} {t : Thread}
    (h : Gives (initialThread context) d t d') :
    d.Extends d' ∧ d'.keys = d.keys ∧ d'.boundaries = d.boundaries ∧
      d'.states.state? t.state = some (n.initial context) ∧
      t.captures = d'.traced?.elim #[] RelativeCaptures.fresh := by
  obtain ⟨i, d1, hi, h⟩ := gives_bind.mp h
  obtain ⟨c, d2, hc, h⟩ := gives_bind.mp h
  obtain ⟨rfl, rfl⟩ := gives_pure.mp h
  unfold freshCaptures at hc
  rw [gives_get_bind] at hc
  obtain ⟨rfl, rfl⟩ := gives_pure.mp hc
  have hb : d'.boundaries = d.boundaries := congrArg (Discovered.boundaries ∘ Prod.snd) hi.symm
  obtain ⟨he, hk, hi⟩ := internState_gives hi
  refine ⟨he, hk, hb, hi, ?_⟩
  unfold Discovered.traced?
  cases d'.tracer <;> rfl

theorem inject_gives {context : Context} (h : Gives (inject context s) d s' d')
    (hs : Realized d as s.threads s.updates) (h0 : d.boundaries.get? noBoundaries = some .empty) :
    d.Extends d' ∧ d'.keys = d.keys ∧ s'.accept = s.accept ∧
      Realized d' (Arrival.join as ⟨n.initial context, none⟩) s'.threads s'.updates := by
  obtain ⟨t, d1, ht, h⟩ := gives_bind.mp h
  obtain ⟨he, hk, hb, hi, hc⟩ := initialThread_gives ht
  have hs := hs.mono he
  rw [hs.join_eq hi]
  cases hmeet : s.hasThread t.state with
  | true =>
    rw [hmeet, if_pos rfl] at h
    obtain ⟨rfl, rfl⟩ := gives_pure.mp h
    exact ⟨he, hk, rfl, hs⟩
  | false =>
    rw [hmeet, if_neg Bool.false_ne_true, gives_get_bind] at h
    cases htr : d1.tracer with
    | none =>
      simp only [htr] at h
      obtain ⟨rfl, rfl⟩ := gives_pure.mp h
      have hn := traced?_of_tracer htr
      rw [hn] at hc
      exact ⟨he, hk, rfl, .cons (realizes_of_tracked hn hi hc (hb ▸ h0)) hs⟩
    | some finder =>
      simp only [htr] at h
      obtain ⟨rfl, rfl⟩ := gives_pure.mp h
      have hg := traced?_of_tracer_eq_some htr
      rw [hg] at hc
      exact ⟨he, hk, rfl, .cons (realizes_of_traced hg hi hc) hs⟩

end Parts

end Build

end PatternAutomata.Dfa
