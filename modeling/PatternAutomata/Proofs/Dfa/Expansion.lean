import PatternAutomata.Proofs.Dfa.Construction

/-!
# The states of a finished automaton

In a finished automaton every key has a state. What the state does on a character is what the moves
of its threads lead to.
-/

namespace PatternAutomata.Dfa

variable {n : Nfa}

namespace Build

/-! ## Expanding a key -/

/-- The moves of threads in slots from `slot` on. -/
inductive MovesOf (d : Discovered n) : Nat → List Thread → List Move → Prop
  | nil {slot : Nat} : MovesOf d slot [] []
  | cons {slot : Nat} {t : Thread} {s : Nfa.State} {trs : List Nfa.Transition} {ts : List Thread}
    {moves : List Move} (hs : d.states.state? t.state = some s) (htrs : n.transitions s = .ok trs)
    (rest : MovesOf d (slot + 1) ts moves) :
    MovesOf d slot (t :: ts) (trs.map (fun transition => { slot, thread := t, transition }) ++ moves)

/-- All that a state leads to was discovered. -/
def SuccessorsKnown (d : Discovered n) (s : State) : Prop :=
  ∀ j ∈ s.successors, ∃ k, d.keys.get? j = some k

/-- What holds of the state for a list of threads. -/
structure Searches (p : Plan) (d : Discovered n) (threads : List Thread) (injecting : Bool) (tracker : BitSet)
    (moves : List Move) (s : State) : Prop where
  successors : SuccessorsKnown d s
  ascends : Transition.Ascends s.transitions
  entry : s.entry = none
  slots : s.slots = if d.traced?.isSome then 0 else threads.length
  ofThreads : MovesOf d 0 threads moves
  transitions : ∀ c ≤ maxCodePoint, ∃ o, Leads p d moves injecting tracker c o ∧
    (s.transition? c).map Transition.outcome =
      if o.1 = dead ∧ o.2.2 = none then none else some o
  endAccept : match moves.find? (·.transition.acceptsEnd) with
    | none => s.endAccept = none
    | some m => ∃ x, s.endAccept = some x ∧ Reports d m x

/-- The key of a search from a state in which nothing has been consumed. -/
def RootKey (p : Plan) (d : Discovered n) (atStart : Bool) (tracker : BitSet) (i : StateId) : Prop :=
  ∃ t, d.keys.get? i = some (.search [t] (!p.sticky) tracker) ∧
    d.states.state? t.state = some (n.initial (n.contextOf atStart tracker)) ∧
    t.captures = d.traced?.elim #[] RelativeCaptures.fresh

/-- What holds of the state that reads before a search. -/
structure ReadsAhead (p : Plan) (d : Discovered n) (tracker : BitSet) (s : State) : Prop where
  successors : SuccessorsKnown d s
  ascends : Transition.Ascends s.transitions
  silent : s.slots = 0 ∧ s.endAccept = none ∧ ∀ t ∈ s.transitions, t.updates = [] ∧ t.accept = none
  entry : ∃ e, s.entry = some e ∧ RootKey p d false tracker e
  transitions : if n.lookBehinds.isEmpty then s.transitions = [] else
    ∀ c ≤ maxCodePoint, ∃ t, s.transition? c = some t ∧
      d.keys.get? t.target = some (.lead (n.lookBehinds.advance tracker c))

/-- What holds of the state for a key. -/
def Expands (p : Plan) (d : Discovered n) (k : Key) (s : State) : Prop :=
  match k with
  | .dead => s = {}
  | .lead tracker => ReadsAhead p d tracker s
  | .search threads injecting tracker => ∃ moves, Searches p d threads injecting tracker moves s

section Expand

variable {p : Plan} {d d' : Discovered n} {threads : List Thread} {moves : List Move}
  {injecting : Bool} {tracker : BitSet} {s : State}

theorem MovesOf.mono {slot : Nat} (h : MovesOf d slot threads moves) (hd : d.Extends d') :
    MovesOf d' slot threads moves := by
  induction h with
  | nil => exact .nil
  | cons hs htrs _ ih => exact .cons (hd.states _ _ hs) htrs ih

theorem SuccessorsKnown.mono (h : SuccessorsKnown d s) (hd : d.Extends d') :
    SuccessorsKnown d' s := by
  intro j hj
  obtain ⟨k, hk⟩ := h j hj
  exact ⟨k, hd.keys _ _ hk⟩

theorem Searches.mono (h : Searches p d threads injecting tracker moves s) (hd : d.Extends d') :
    Searches p d' threads injecting tracker moves s where
  successors := h.successors.mono hd
  ascends := h.ascends
  entry := h.entry
  slots := hd.traced ▸ h.slots
  ofThreads := h.ofThreads.mono hd
  transitions c hc := by
    obtain ⟨o, ho, ht⟩ := h.transitions c hc
    exact ⟨o, ho.mono hd, ht⟩
  endAccept := by
    have := h.endAccept
    split at this
    · exact this
    · obtain ⟨x, hx, hr⟩ := this
      exact ⟨x, hx, hr.mono hd⟩

theorem RootKey.mono {atStart : Bool} {i : StateId} (h : RootKey p d atStart tracker i)
    (hd : d.Extends d') : RootKey p d' atStart tracker i := by
  obtain ⟨t, hk, hs, hc⟩ := h
  exact ⟨t, hd.keys _ _ hk, hd.states _ _ hs, hd.traced ▸ hc⟩

theorem Expands.mono {k : Key} (h : Expands p d k s) (hd : d.Extends d') : Expands p d' k s := by
  cases k with
  | dead => exact h
  | lead tracker =>
    obtain ⟨hs, hascends, hsilent, ⟨e, he, hr⟩, ht⟩ := h
    refine ⟨hs.mono hd, hascends, hsilent, ⟨e, he, hr.mono hd⟩, ?_⟩
    split
    · rename_i hempty
      rwa [if_pos hempty] at ht
    · rename_i hempty
      rw [if_neg hempty] at ht
      intro c hc
      obtain ⟨t, hs, hk⟩ := ht c hc
      exact ⟨t, hs, hd.keys _ _ hk⟩
  | search threads injecting tracker =>
    obtain ⟨moves, h⟩ := h
    exact ⟨moves, h.mono hd⟩

theorem Expands.successors {k : Key} (h : Expands p d k s) : SuccessorsKnown d s := by
  cases k with
  | dead =>
    cases h
    exact fun j hj => by cases hj
  | lead tracker => exact ReadsAhead.successors h
  | search threads injecting tracker =>
    obtain ⟨moves, h⟩ := h
    exact h.successors

/-- A part of the construction for every range, and its transitions put together. -/
theorem foldlM_gives {f : CodePointRange → Build n Transition}
    {g : List Transition → Transition → List Transition} {P : Discovered n → Prop}
    {Q : Discovered n → CodePointRange → Transition → Prop}
    (hf : ∀ r d t d', P d → Gives (f r) d t d' →
      d.Extends d' ∧ P d' ∧ t.range = r ∧ Q d' r t)
    (hQ : ∀ d d' r t, Q d r t → d.Extends d' → Q d' r t) {rs : List CodePointRange}
    {acc out : List Transition} (hP : P d)
    (h : Gives (rs.foldlM (fun ts r => do
      let t ← f r
      return g ts t) acc) d out d') :
    ∃ l : List Transition, d.Extends d' ∧ P d' ∧ l.map (·.range) = rs ∧
      (∀ t ∈ l, Q d' t.range t) ∧ out = l.foldl g acc := by
  induction rs generalizing acc d with
  | nil =>
    obtain ⟨rfl, rfl⟩ := gives_pure.mp h
    exact ⟨[], .refl _, hP, rfl, by simp, rfl⟩
  | cons r rs ih =>
    rw [List.foldlM_cons] at h
    obtain ⟨ts, d1, hr, hrest⟩ := gives_bind.mp h
    obtain ⟨t, d1, ht, hp⟩ := gives_bind.mp hr
    obtain ⟨rfl, rfl⟩ := gives_pure.mp hp
    obtain ⟨he, hP1, rfl, hq⟩ := hf r d t _ hP ht
    obtain ⟨l, he', hP', hl, hql, hout⟩ := ih hP1 hrest
    refine ⟨t :: l, he.trans he', hP', by rw [List.map_cons, hl], ?_, hout⟩
    intro u hu
    rcases List.mem_cons.mp hu with rfl | hu
    · exact hQ _ _ _ _ hq he'
    · exact hql u hu

/-- A thread that begins has a valid key. -/
theorem keyValid_singleton {t : Thread} {initial : Nfa.State}
    (hs : d.states.state? t.state = some initial)
    (hc : t.captures = d.traced?.elim #[] RelativeCaptures.fresh) (injecting : Bool)
    (tracker : BitSet) : KeyValid p d (.search [t] injecting tracker) := by
  refine ⟨fun u hu => ?_, Nat.le_max_left .., fun u hu => ?_⟩
  · rw [List.mem_singleton.mp hu]
    exact ⟨_, hs⟩
  · rw [List.mem_singleton.mp hu]
    intro j e hj
    rw [hc] at hj
    cases hg : d.traced? with
    | none => simp [hg] at hj
    | some groups => simp [hg, RelativeCaptures.fresh, Array.getElem?_replicate] at hj

theorem root_gives {atStart : Bool} {i : StateId} (hv : Valid p d)
    (h : Gives (root p tracker atStart) d i d') :
    d.Extends d' ∧ Valid p d' ∧ RootKey p d' atStart tracker i := by
  obtain ⟨t, d1, ht, h⟩ := gives_bind.mp h
  obtain ⟨he1, hk1, -, hs, hc⟩ := initialThread_gives ht
  have hv1 := hv.mono he1 hk1
  have hkv := keyValid_singleton (p := p) hs hc (!p.sticky) tracker
  obtain ⟨he2, hi, -, -⟩ := internKey_gives h
  exact ⟨he1.trans he2, hv1.internKey hkv h, t, hi, he2.states _ _ hs, he2.traced ▸ hc⟩

theorem internKey_lead_gives {i : StateId} (hv : Valid p d)
    (h : Gives (internKey p (.lead tracker)) d i d') :
    d.Extends d' ∧ Valid p d' ∧ d'.keys.get? i = some (.lead tracker) := by
  obtain ⟨he, hi, -, -⟩ := internKey_gives h
  exact ⟨he, hv.internKey ⟨by simp [Key.threads], by simp [Key.threads], by simp [Key.threads]⟩ h, hi⟩

/-- A class of a look-behind does not tell the members of an interval apart. -/
theorem advance_eq_of_cuts {lo c : Nat} (hlo : lo ≤ c)
    (h : ∀ a ∈ trackerCuts n, a ≤ lo ∨ c < a) (tracker : BitSet) :
    n.lookBehinds.advance tracker c = n.lookBehinds.advance tracker lo := by
  refine LookBehindTable.advance_congr (fun set hset => ?_) tracker
  exact contains_eq_of_cuts hlo fun a ha => h a (List.mem_flatMap.mpr ⟨set, hset, ha⟩)

theorem gives_liftM {α : Type} {x : Except Bailout α} {a : α} :
    Gives (liftM x : Build n α) d a d' ↔ x = .ok a ∧ d' = d := by
  cases x with
  | error e =>
    constructor
    · intro h
      cases congrArg Prod.fst h
    · rintro ⟨h, -⟩
      cases h
  | ok b =>
    constructor
    · intro h
      obtain ⟨h1, h2⟩ := Prod.mk.inj h
      cases h1
      exact ⟨rfl, h2.symm⟩
    · rintro ⟨h, rfl⟩
      cases h
      rfl

/-- The moves of threads, whose states all have transitions. -/
theorem movesOf_mapM {slot : Nat} {mss : List (List Move)} {d1 : Discovered n}
    (hs : ∀ t ∈ threads, ∃ s, d.states.state? t.state = some s)
    (h : Gives ((threads.zipIdx slot).mapM fun (thread, slot) =>
      (liftM ((d.states.transitions thread.state).map fun ts : List Nfa.Transition =>
        ts.map fun transition => { slot, thread, transition : Move }) : Build n (List Move)))
      d1 mss d') : d' = d1 ∧ MovesOf d slot threads mss.flatten := by
  induction threads generalizing slot mss with
  | nil =>
    obtain ⟨rfl, rfl⟩ := gives_pure.mp h
    exact ⟨rfl, .nil⟩
  | cons t ts ih =>
    obtain ⟨s, hts⟩ := hs t (by simp)
    rw [List.zipIdx_cons, List.mapM_cons] at h
    obtain ⟨ms, d2, hms, h⟩ := gives_bind.mp h
    obtain ⟨rest, d3, hrest, hp⟩ := gives_bind.mp h
    obtain ⟨rfl, rfl⟩ := gives_pure.mp hp
    obtain ⟨hok, rfl⟩ := gives_liftM.mp hms
    obtain ⟨rfl, hmoves⟩ := ih (fun t ht => hs t (by simp [ht])) hrest
    rw [Nfa.States.transitions_eq hts] at hok
    cases htrs : n.transitions s with
    | error e =>
      rw [htrs] at hok
      cases hok
    | ok trs =>
      rw [htrs] at hok
      cases hok
      exact ⟨rfl, .cons hts htrs hmoves⟩

theorem MovesOf.mem {slot : Nat} (h : MovesOf d slot threads moves) {m : Move} (hm : m ∈ moves) :
    m.thread ∈ threads := by
  induction h with
  | nil => cases hm
  | cons _ _ _ ih =>
    rcases List.mem_append.mp hm with hm | hm
    · obtain ⟨tr, -, rfl⟩ := List.mem_map.mp hm
      simp
    · exact List.mem_cons_of_mem _ (ih hm)

theorem allMoves_movesOf (hs : ∀ t ∈ threads, ∃ s, d.states.state? t.state = some s)
    (h : Gives (allMoves threads) d moves d') : d' = d ∧ MovesOf d 0 threads moves := by
  unfold allMoves at h
  rw [gives_get_bind] at h
  obtain ⟨mss, d1, hm, hp⟩ := gives_bind.mp h
  obtain ⟨rfl, rfl⟩ := gives_pure.mp hp
  exact movesOf_mapM hs hm

theorem allMoves_gives (hv : Valid p d) {i : StateId} {k : Key} (hk : d.keys.get? i = some k)
    (h : Gives (allMoves k.threads) d moves d') :
    d' = d ∧ MovesOf d 0 k.threads moves ∧ Known d moves := by
  obtain ⟨rfl, hmoves⟩ := allMoves_movesOf (hv.keys i k hk).states h
  exact ⟨rfl, hmoves, fun m hmem => ⟨i, k, hk, hmoves.mem hmem⟩⟩

theorem endAccept_gives {x : Option Accept} (h : Gives (endAccept moves) d x d') :
    d.Extends d' ∧ d'.keys = d.keys ∧ match moves.find? (·.transition.acceptsEnd) with
      | none => x = none
      | some m => ∃ y, x = some y ∧ Reports d' m y := by
  unfold endAccept at h
  cases hf : moves.find? (·.transition.acceptsEnd) with
  | none =>
    simp only [hf] at h
    obtain ⟨rfl, rfl⟩ := gives_pure.mp h
    exact ⟨.refl _, rfl, rfl⟩
  | some m =>
    simp only [hf] at h
    obtain ⟨y, d1, hy, hp⟩ := gives_bind.mp h
    obtain ⟨rfl, rfl⟩ := gives_pure.mp hp
    obtain ⟨he, hk, hr⟩ := accept_gives hy
    exact ⟨he, hk, y, rfl, hr⟩

/-- Every character leads to the state that reads on with the tracker advanced by it. -/
theorem leadTransitions_gives {ts : List Transition} (hv : Valid p d)
    (h : Gives ((intervals (ascending (0 :: trackerCuts n))).foldlM (fun ts range => do
      let target ← internKey p (.lead (n.lookBehinds.advance tracker range.lo))
      return Transition.joinTo { range, target } ts) []) d ts d') :
    d.Extends d' ∧ Valid p d' ∧ Transition.Ascends ts.reverse ∧
      (∀ t ∈ ts.reverse, (t.updates = [] ∧ t.accept = none) ∧ ∃ k, d'.keys.get? t.target = some k) ∧
      ∀ c ≤ maxCodePoint, ∃ t, ts.reverse.find? (·.range.contains c) = some t ∧
        d'.keys.get? t.target = some (.lead (n.lookBehinds.advance tracker c)) := by
  have hfold : Gives ((intervals (ascending (0 :: trackerCuts n))).foldlM (fun ts range => do
      let t ← (do
        let target ← internKey p (.lead (n.lookBehinds.advance tracker range.lo))
        return ({ range, target } : Transition))
      return t.joinTo ts) []) d ts d' := by
    simpa only [bind_assoc, pure_bind] using h
  obtain ⟨l, he, hv', hl, hq, rfl⟩ := foldlM_gives (P := Valid p)
    (Q := fun d r t => (t.updates = [] ∧ t.accept = none) ∧
      d.keys.get? t.target = some (.lead (n.lookBehinds.advance tracker r.lo)))
    (fun r d t d' hv h => by
      obtain ⟨i, d1, hi, hp⟩ := gives_bind.mp h
      obtain ⟨rfl, rfl⟩ := gives_pure.mp hp
      obtain ⟨he, hv', hk⟩ := internKey_lead_gives hv hi
      exact ⟨he, hv', rfl, ⟨rfl, rfl⟩, hk⟩)
    (fun d d' r t hq he => ⟨hq.1, he.keys _ _ hq.2⟩) hv hfold
  -- No key but the dead one is dead, so no transition is left out.
  have hne : ∀ t ∈ l, ¬(t.target = dead ∧ t.accept = none) := by
    rintro t ht ⟨hdead, -⟩
    have := (hq t ht).2
    rw [hdead, hv'.dead] at this
    cases this
  rw [Transition.foldl_joinTo_eq [] hne]
  refine ⟨he, hv', Transition.ascends_joined (ascending_pairwise _) hl, fun t ht => ?_,
    fun c hc => ?_⟩
  · obtain ⟨u, hu, ho⟩ : ∃ u ∈ l, u.outcome = t.outcome := by
      rcases Transition.exists_of_mem_foldl_joined (List.mem_reverse.mp ht) with ⟨u, hu, -⟩ | hu
      · cases hu
      · exact hu
    obtain ⟨htarget, hrest⟩ := Prod.mk.inj ho
    obtain ⟨hupdates, haccept⟩ := Prod.mk.inj hrest
    obtain ⟨hsilent, hk⟩ := hq u hu
    exact ⟨⟨hupdates ▸ hsilent.1, haccept ▸ hsilent.2⟩, _, htarget ▸ hk⟩
  · obtain ⟨t, ht, ⟨hlo, hpoints⟩, hfind⟩ := Transition.find?_joined (ascending_pairwise _)
      (head?_ascending_zero _) hl hc
    rw [if_neg (hne t ht), Option.map_eq_some_iff] at hfind
    obtain ⟨u, hu, ho⟩ := hfind
    refine ⟨u, hu, ?_⟩
    rw [show u.target = t.target from congrArg Prod.fst ho, (hq t ht).2,
      advance_eq_of_cuts hlo fun a ha => hpoints a (mem_ascending.mpr (by simp [ha]))]

theorem expandLead_gives (hv : Valid p d) (h : Gives (expandLead p tracker) d s d') :
    d.Extends d' ∧ Valid p d' ∧ ReadsAhead p d' tracker s := by
  obtain ⟨e, d1, hroot, h⟩ := gives_bind.mp h
  obtain ⟨he1, hv1, hr⟩ := root_gives hv hroot
  cases hempty : n.lookBehinds.isEmpty with
  | true =>
    simp only [hempty, ite_true] at h
    obtain ⟨rfl, rfl⟩ := gives_pure.mp h
    refine ⟨he1, hv1, fun j hj => ?_, Transition.ascends_nil, ⟨rfl, rfl, by simp⟩, ⟨e, rfl, hr⟩, by
      rw [if_pos hempty]⟩
    obtain rfl := List.mem_singleton.mp hj
    obtain ⟨t, hk, -⟩ := hr
    exact ⟨_, hk⟩
  | false =>
    simp only [hempty, Bool.false_eq_true, ite_false] at h
    obtain ⟨ts, d2, hts, hp⟩ := gives_bind.mp h
    obtain ⟨rfl, rfl⟩ := gives_pure.mp hp
    obtain ⟨he2, hv2, hascends, hmem, hfind⟩ := leadTransitions_gives hv1 hts
    have hr := hr.mono he2
    refine ⟨he1.trans he2, hv2, fun j hj => ?_, hascends, ⟨rfl, rfl, fun t ht => (hmem t ht).1⟩,
      ⟨e, rfl, hr⟩, by rwa [if_neg (by simp [hempty])]⟩
    rcases List.mem_cons.mp hj with rfl | hj
    · obtain ⟨t, hk, -⟩ := hr
      exact ⟨_, hk⟩
    · obtain ⟨t, ht, rfl⟩ := List.mem_map.mp hj
      exact (hmem t ht).2

theorem expandSearch_gives (hv : Valid p d) {i : StateId}
    (hk : d.keys.get? i = some (.search threads injecting tracker))
    (h : Gives (expandSearch p threads injecting tracker) d s d') :
    d.Extends d' ∧ Valid p d' ∧ ∃ moves, Searches p d' threads injecting tracker moves s := by
  obtain ⟨moves, d1, hm, h1⟩ := gives_bind.mp h
  obtain ⟨rfl, hmoves, hknown⟩ := allMoves_gives hv hk hm
  obtain ⟨ts, d2, hts, h2⟩ := gives_bind.mp h1
  obtain ⟨x, d3, hx, h3⟩ := gives_bind.mp h2
  rw [gives_get_bind] at h3
  obtain ⟨rfl, rfl⟩ := gives_pure.mp h3
  obtain ⟨l, he2, ⟨hv2, -⟩, hl, hq, rfl⟩ := foldlM_gives (P := fun d => Valid p d ∧ Known d moves)
    (Q := fun d r t => Leads p d moves injecting tracker r.lo t.outcome)
    (g := Transition.joined)
    (fun r d t d' hP h => by
      obtain ⟨he, hv', hr, hlead⟩ := step_gives h hP.1 hP.2
      exact ⟨he, ⟨hv', hP.2.mono he⟩, hr, hlead⟩)
    (fun d d' r t hq he => hq.mono he) ⟨hv, hknown⟩ hts
  obtain ⟨he3, hk3, hacc⟩ := endAccept_gives hx
  have hv3 := hv2.mono he3 hk3
  refine ⟨he2.trans he3, hv3, moves, fun j hj => ?_,
    Transition.ascends_joined (ascending_pairwise _) hl, rfl, by
      rw [Discovered.traced?, Option.isSome_map], hmoves.mono (he2.trans he3), ?_, hacc⟩
  · obtain ⟨t, ht, rfl⟩ := List.mem_map.mp hj
    rcases Transition.exists_of_mem_foldl_joined (List.mem_reverse.mp ht) with
      ⟨u, hu, -⟩ | ⟨u, hu, ho⟩
    · cases hu
    · rw [← show u.target = t.target from congrArg Prod.fst ho]
      obtain ⟨_, _, -, -, (⟨-, hdead⟩ | ⟨-, hkey⟩)⟩ := ((hq u hu).mono he3).target
      · exact ⟨_, hdead ▸ hv3.dead⟩
      · exact ⟨_, hkey⟩
  intro c hc
  obtain ⟨t, ht, ⟨hlo, hpoints⟩, hfind⟩ := Transition.find?_joined (ascending_pairwise _)
    (head?_ascending_zero _) hl hc
  refine ⟨t.outcome, ((hq t ht).mono he3).congr (fun m hm => ?_) ?_, hfind⟩
  · refine contains_eq_of_cuts hlo fun a ha => hpoints a (mem_ascending.mpr ?_)
    exact List.mem_cons_of_mem _ (List.mem_append.mpr (.inr (List.mem_flatMap.mpr ⟨m, hm, ha⟩)))
  · refine advance_eq_of_cuts hlo (fun a ha => hpoints a (mem_ascending.mpr ?_)) _
    exact List.mem_cons_of_mem _ (List.mem_append.mpr (.inl ha))

theorem expand_gives (hv : Valid p d) {i : StateId} {k : Key} (hk : d.keys.get? i = some k)
    (h : Gives (expand p k) d s d') : d.Extends d' ∧ Valid p d' ∧ Expands p d' k s := by
  cases k with
  | dead =>
    obtain ⟨rfl, rfl⟩ := gives_pure.mp h
    exact ⟨.refl _, hv, rfl⟩
  | lead tracker => exact expandLead_gives hv h
  | search threads injecting tracker => exact expandSearch_gives hv hk h

/-- The states that are made are those of the first keys. There are fewer of them than keys only if
the fuel runs out. -/
theorem expandAll_expands {fuel : Nat} {done states : Array State}
    (h : Gives (expandAll p fuel done) d states d') (hv : Valid p d)
    (hdone : ∀ i k, i < done.size → d.keys.get? i = some k →
      ∃ s, done[i]? = some s ∧ Expands p d k s)
    (hsize : done.size ≤ d.keys.size) :
    d.Extends d' ∧ Valid p d' ∧ states.size ≤ d'.keys.size ∧
      (states.size < d'.keys.size → states.size = fuel + done.size) ∧
      ∀ i k, i < states.size → d'.keys.get? i = some k →
        ∃ s, states[i]? = some s ∧ Expands p d' k s := by
  induction fuel generalizing d done with
  | zero =>
    obtain ⟨rfl, rfl⟩ := gives_pure.mp h
    exact ⟨.refl _, hv, hsize, fun _ => (Nat.zero_add _).symm, hdone⟩
  | succ fuel ih =>
    unfold expandAll at h
    rw [gives_get_bind] at h
    cases hk : d.keys.get? done.size with
    | none =>
      simp only [hk] at h
      obtain ⟨rfl, rfl⟩ := gives_pure.mp h
      have hle : d'.keys.size ≤ states.size := Array.getElem?_eq_none_iff.mp hk
      exact ⟨.refl _, hv, hsize, fun hlt => absurd hlt (Nat.not_lt_of_le hle), hdone⟩
    | some key =>
      simp only [hk] at h
      obtain ⟨s, d1, hs, h1⟩ := gives_bind.mp h
      obtain ⟨he1, hv1, hx⟩ := expand_gives hv hk hs
      have hlt := Interner.lt_size (he1.keys _ _ hk)
      obtain ⟨he2, hv2, hle, hfuel, hrest⟩ := ih h1 hv1 (fun i k hi hik => by
        rw [Array.size_push] at hi
        rw [Array.getElem?_push]
        split
        · rename_i heq
          subst heq
          rw [he1.keys _ _ hk] at hik
          cases hik
          exact ⟨s, rfl, hx⟩
        · have hi' : i < done.size := by omega
          obtain ⟨k', hk'⟩ : ∃ k', d.keys.get? i = some k' := by
            have : i < d.keys.items.size := Nat.lt_of_lt_of_le hi' hsize
            exact ⟨_, Array.getElem?_eq_getElem this⟩
          obtain ⟨s', hs', hx'⟩ := hdone i k' hi' hk'
          rw [he1.keys _ _ hk'] at hik
          cases hik
          exact ⟨s', hs', hx'.mono he1⟩)
        (by rw [Array.size_push]; omega)
      refine ⟨he1.trans he2, hv2, hle, fun hlt => ?_, hrest⟩
      rw [hfuel hlt, Array.size_push]
      omega

end Expand

/-! ## The whole automaton -/

/-- The automaton `a` is made of what was discovered. -/
structure Built (p : Plan) (d : Discovered n) (a : Dfa) : Prop where
  valid : Valid p d
  size : a.states.size = d.keys.size
  expands : ∀ i k, d.keys.get? i = some k → Expands p d k (a.state i)
  rootStart : RootKey p d n.usesStart n.lookBehinds.initial a.rootStart
  rootMid : d.keys.get? a.rootMid = some (.lead n.lookBehinds.initial)
  leadLength : a.leadLength = n.lookBehinds.maxLength
  boundaries : a.boundaries = d.boundaries.items
  results : a.results = d.tracer.map (·.results.items)
  groups : a.groups = n.groupCount

theorem Built.successor_lt {p : Plan} {d : Discovered n} {a : Dfa} (h : Built p d a) {i j : StateId}
    (hj : j ∈ (a.state i).successors) : j < a.states.size := by
  rw [h.size]
  by_cases hi : i < d.keys.size
  · have hk : d.keys.get? i = some d.keys.items[i] := Array.getElem?_eq_getElem hi
    obtain ⟨k, hk⟩ := (h.expands i _ hk).successors j hj
    exact Interner.lt_size hk
  · rw [state, Array.getD_eq_getD_getElem?,
      Array.getElem?_eq_none_iff.mpr (h.size ▸ Nat.le_of_not_lt hi)] at hj
    cases hj

theorem Built.root_lt {p : Plan} {d : Discovered n} {a : Dfa} (h : Built p d a) :
    dead < a.states.size ∧ a.rootStart < a.states.size ∧ a.rootMid < a.states.size := by
  obtain ⟨t, hk, -⟩ := h.rootStart
  rw [h.size]
  exact ⟨Interner.lt_size h.valid.dead, Interner.lt_size hk, Interner.lt_size h.rootMid⟩

theorem valid_start (p : Plan) (states : Nfa.States n) (tracer : Option TraceFinder) :
    Valid p (Discovered.start states tracer) := by
  have hkeys : ∀ i k, (Discovered.start states tracer).keys.get? i = some k → k = Key.dead := by
    intro i k hi
    rcases Interner.get?_intern hi with hi | rfl
    · cases hi
    · rfl
  refine ⟨Interner.get?_intern_empty _, Interner.get?_intern_empty _, ?_, fun i k hi => ?_⟩
  · exact Nat.le_trans (Interner.size_intern_le ..) (Nat.le_max_left ..)
  · rw [hkeys i k hi]
    exact ⟨by simp [Key.threads], by simp [Key.threads], by simp [Key.threads]⟩

/-- The construction, up to `fuel` states. -/
def upTo (p : Plan) (fuel : Nat) : Build n Dfa := do
  let tracker := n.lookBehinds.initial
  let rootStart ← root p tracker n.usesStart
  let rootMid ← internKey p (.lead tracker)
  let states ← expandAll p fuel #[]
  let d ← get
  return {
    states, rootStart, rootMid
    leadLength := n.lookBehinds.maxLength
    boundaries := d.boundaries.items
    results := d.tracer.map (·.results.items)
    groups := n.groupCount }

theorem dfa_eq_upTo (p : Plan) : dfa (n := n) p = upTo p (p.maxStates + 1) := rfl

/-- The first states of the automaton are made of what was discovered. -/
structure Begun (p : Plan) (d : Discovered n) (a : Dfa) : Prop where
  valid : Valid p d
  size : a.states.size ≤ d.keys.size
  expands : ∀ i k, i < a.states.size → d.keys.get? i = some k → Expands p d k (a.state i)
  rootStart : RootKey p d n.usesStart n.lookBehinds.initial a.rootStart
  rootMid : d.keys.get? a.rootMid = some (.lead n.lookBehinds.initial)

theorem begun_of_gives {states : Nfa.States n} {p : Plan} {tracer : Option TraceFinder} {fuel : Nat}
    {a : Dfa} {d : Discovered n} (hrun : Gives (upTo p fuel) (Discovered.start states tracer) a d) :
    Begun p d a ∧ (a.states.size < d.keys.size → a.states.size = fuel) ∧
      (Discovered.start states tracer).Extends d := by
  have hv := valid_start p states tracer
  obtain ⟨i, d1, h1, hrun⟩ := gives_bind.mp hrun
  obtain ⟨he1, hv1, hroot⟩ := root_gives hv h1
  obtain ⟨j, d2, h2, hrun⟩ := gives_bind.mp hrun
  obtain ⟨he2, hv2, hmid⟩ := internKey_lead_gives hv1 h2
  obtain ⟨ss, d3, h3, hrun⟩ := gives_bind.mp hrun
  rw [gives_get_bind] at hrun
  obtain ⟨rfl, rfl⟩ := gives_pure.mp hrun
  obtain ⟨he3, hv3, hle, hshort, hx⟩ := expandAll_expands h3 hv2 (by simp) (Nat.zero_le _)
  refine ⟨⟨hv3, hle, fun i k hlt hi => ?_, hroot.mono (he2.trans he3), he3.keys _ _ hmid⟩, hshort,
    (he1.trans he2).trans he3⟩
  obtain ⟨s, hs, hexp⟩ := hx i k hlt hi
  rw [Dfa.state, Array.getD_eq_getD_getElem?, hs]
  exact hexp

/-- What the whole construction gives is made of what it discovers. -/
theorem built_of_gives {states : Nfa.States n} {p : Plan} {tracer : Option TraceFinder} {a : Dfa}
    {d : Discovered n} (hrun : Gives (dfa p) (Discovered.start states tracer) a d) :
    Built p d a ∧ (Discovered.start states tracer).Extends d := by
  obtain ⟨hb, hshort, he⟩ := begun_of_gives (dfa_eq_upTo (n := n) p ▸ hrun)
  -- There are never more keys than states for which there is fuel.
  have hsize : a.states.size = d.keys.size := by
    have hle := hb.size
    have hbound := hb.valid.size
    omega
  obtain ⟨_, _, _, hrun⟩ := gives_bind.mp hrun
  obtain ⟨_, _, _, hrun⟩ := gives_bind.mp hrun
  obtain ⟨_, _, _, hrun⟩ := gives_bind.mp hrun
  rw [gives_get_bind] at hrun
  obtain ⟨rfl, rfl⟩ := gives_pure.mp hrun
  exact ⟨⟨hb.valid, hsize, fun i k hi => hb.expands i k (hsize ▸ Interner.lt_size hi) hi,
    hb.rootStart, hb.rootMid, rfl, rfl, rfl, rfl⟩, he⟩

theorem exists_built {states states' : Nfa.States n} {p : Plan} {tracer : Option TraceFinder}
    {a : Dfa} (h : build states p tracer = (.ok a, states')) :
    ∃ d : Discovered n, Built p d a ∧ (Discovered.start states tracer).Extends d := by
  have hfst : ((dfa p).run.run (Discovered.start states tracer)).1 = .ok a := congrArg Prod.fst h
  exact ⟨_, built_of_gives (Prod.ext hfst rfl)⟩

theorem build_eq_ok {states states' : Nfa.States n} {p : Plan} {tracer : Option TraceFinder} {a : Dfa}
    (h : build states p tracer = (.ok a, states')) :
    ∃ d : Discovered n, Built p d a ∧ d.traced? = tracer.map (·.groups) :=
  let ⟨d, hb, he⟩ := exists_built h
  ⟨d, hb, he.traced⟩

end Build

end PatternAutomata.Dfa
