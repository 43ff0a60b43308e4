import PatternAutomata.Proofs.Dfa.Expansion
import PatternAutomata.Proofs.Dfa.Splitting
import PatternAutomata.Proofs.Nfa.Outcomes

/-!
# Whatever a finished automaton names exists

The states of an automaton name each other, the slots of the threads, and entries of the tables of
boundaries and results. `Dfa.InRange` says that all of these exist. It holds of what the construction
finishes, since a transition lists one update for each thread of its target, and the copies of
states that splitting loops makes name the same slots and entries.
-/

namespace PatternAutomata.Dfa

/-! ## What is named -/

/-- There are boundaries with this number, and there are captures for all that they touch. -/
def HasBoundaries (d : Dfa) (i : Nat) : Prop := ∃ b, d.boundaries[i]? = some b ∧ b.Below d.groups

/-- What a match in the state `s` names exists. -/
def AcceptInRange (d : Dfa) (s : State) : Accept → Prop
  | .slot origin b => d.results = none ∧ origin < s.slots ∧ d.HasBoundaries b
  | .result i => i < TraceFinder.maxCount ∧ ∃ results, d.results = some results ∧ i < results.size

/-- What a transition of the state `s` names exists. -/
structure TransitionInRange (d : Dfa) (s : State) (t : Transition) : Prop where
  length_updates : t.updates.length = (d.state t.target).slots
  updates : ∀ u ∈ t.updates, (∀ origin, u.origin = some origin → origin < s.slots) ∧
    d.HasBoundaries u.boundaries
  accept : ∀ x, t.accept = some x → d.AcceptInRange s x

/-- What a state names exists. -/
structure StateInRange (d : Dfa) (s : State) : Prop where
  successors : ∀ j ∈ s.successors, j < d.size
  ascends : Transition.Ascends s.transitions
  transitions : ∀ t ∈ s.transitions, d.TransitionInRange s t
  endAccept : ∀ x, s.endAccept = some x → d.AcceptInRange s x
  slots : s.slots ≤ 255
  traced : d.isTraced = true → s.slots = 0 ∧ ∀ t ∈ s.transitions, t.updates = []
  /-- A state that reads before a search leads to such states only, until the search begins. -/
  lead : ∀ e, s.entry = some e → (d.state e).entry = none ∧
    ∀ t ∈ s.transitions, (d.state t.target).entry.isSome = true

/-- Whatever the automaton names exists. -/
structure InRange (d : Dfa) : Prop where
  dead : d.states[dead]? = some {}
  rootStart : d.rootStart < d.size ∧ (d.state d.rootStart).entry = none
  rootMid : d.rootMid < d.size ∧ (d.state d.rootMid).entry.isSome = true
  states : ∀ i < d.size, d.StateInRange (d.state i)

theorem stateInRange_empty (d : Dfa) : d.StateInRange {} :=
  ⟨nofun, Transition.ascends_nil, nofun, nofun, by decide, fun _ => ⟨rfl, nofun⟩, nofun⟩

/-! ## What is built -/

namespace Build

variable {n : Nfa} {p : Plan} {d : Discovered n} {a : Dfa}

/-! ### Updates -/

theorem Realized.length_updates {as : List Arrival} {ts : List Thread} {us : List SlotUpdate}
    (h : Realized d as ts us) : us.length = if d.traced?.isSome then 0 else ts.length := by
  induction h with
  | nil => simp
  | @cons a t u as ts us h _ ih =>
    rw [List.length_append, ih]
    cases hg : d.traced? with
    | none =>
      obtain ⟨-, b, rfl, -⟩ := h.tracked hg
      simp [Nat.add_comm]
    | some groups =>
      obtain ⟨rfl, -⟩ := h.traced groups hg
      simp

theorem Realized.mem_update {as : List Arrival} {ts : List Thread} {us : List SlotUpdate}
    (h : Realized d as ts us) {u : SlotUpdate} (hu : u ∈ us) :
    ∃ a ∈ as, d.traced? = none ∧ ∃ b, u = { origin := a.move.map Move.slot, boundaries := b } ∧
      d.boundaries.get? b = some a.boundaries := by
  induction h with
  | nil => cases hu
  | @cons a t v as ts us h _ ih =>
    rcases List.mem_append.mp hu with hu | hu
    · obtain rfl := Option.mem_toList.mp hu
      cases hg : d.traced? with
      | none =>
        obtain ⟨-, b, hb, hget⟩ := h.tracked hg
        exact ⟨a, by simp, rfl, b, Option.some.inj hb, hget⟩
      | some groups => cases (h.traced groups hg).1
    · obtain ⟨a', ha', hrest⟩ := ih hu
      exact ⟨a', by simp [ha'], hrest⟩

/-! ### Moves -/

theorem MovesOf.slot_lt {slot : Nat} {threads : List Thread} {moves : List Move}
    (h : MovesOf d slot threads moves) {m : Move} (hm : m ∈ moves) :
    m.slot < slot + threads.length := by
  induction h with
  | nil => cases hm
  | cons _ _ _ ih =>
    rw [List.length_cons]
    rcases List.mem_append.mp hm with hm | hm
    · obtain ⟨tr, -, rfl⟩ := List.mem_map.mp hm
      simp only
      omega
    · have := ih hm
      omega

theorem MovesOf.exists_transitions {slot : Nat} {threads : List Thread} {moves : List Move}
    (h : MovesOf d slot threads moves) {m : Move} (hm : m ∈ moves) :
    ∃ s ts, d.states.state? m.thread.state = some s ∧ n.transitions s = .ok ts ∧
      m.transition ∈ ts := by
  induction h with
  | nil => cases hm
  | @cons _ _ s trs _ _ hs htrs _ ih =>
    rcases List.mem_append.mp hm with hm | hm
    · obtain ⟨tr, htr, rfl⟩ := List.mem_map.mp hm
      exact ⟨s, trs, hs, htrs, htr⟩
    · exact ih hm

/-- A transition of a state that searches does what the moves lead to on one of its characters. -/
theorem Searches.exists_leads {threads : List Thread} {injecting : Bool} {tracker : BitSet}
    {moves : List Move} {s : State} (h : Searches p d threads injecting tracker moves s)
    {t : Transition} (ht : t ∈ s.transitions) :
    ∃ c, Leads p d moves injecting tracker c t.outcome := by
  have hc : t.range.contains t.range.lo = true :=
    CodePointRange.contains_iff.mpr ⟨Nat.le_refl _, t.range.lo_le_hi⟩
  obtain ⟨o, hleads, ho⟩ := h.transitions t.range.lo
    (Nat.le_trans t.range.lo_le_hi (h.ascends.le_max t ht))
  rw [State.transition?, h.ascends.find?_eq ht hc] at ho
  split at ho
  · cases ho
  · obtain rfl := Option.some.inj ho
    exact ⟨_, hleads⟩

/-! ### States -/

theorem Built.lt_size (hb : Built p d a) {i : StateId} {k : Key} (hk : d.keys.get? i = some k) :
    i < a.size := by
  rw [Dfa.size, hb.size]
  exact Interner.lt_size hk

theorem Built.slots_eq (hb : Built p d a) {i : StateId} {k : Key} (hk : d.keys.get? i = some k) :
    (a.state i).slots = if d.traced?.isSome then 0 else k.threads.length := by
  have hx := hb.expands i k hk
  cases k with
  | dead =>
    rw [show a.state i = {} from hx]
    simp [Key.threads]
  | lead tracker => simp [(show ReadsAhead p d tracker (a.state i) from hx).silent.1, Key.threads]
  | search threads injecting tracker =>
    obtain ⟨moves, hsearch⟩ := hx
    exact hsearch.slots

theorem Built.entry_of_search (hb : Built p d a) {i : StateId} {threads : List Thread}
    {injecting : Bool} {tracker : BitSet}
    (hk : d.keys.get? i = some (.search threads injecting tracker)) : (a.state i).entry = none := by
  obtain ⟨moves, hsearch⟩ := hb.expands i _ hk
  exact hsearch.entry

theorem Built.entry_of_lead (hb : Built p d a) {i : StateId} {tracker : BitSet}
    (hk : d.keys.get? i = some (.lead tracker)) : (a.state i).entry.isSome = true := by
  obtain ⟨e, he, -⟩ := (show ReadsAhead p d tracker (a.state i) from hb.expands i _ hk).entry
  rw [he]
  rfl

/-- The automaton is traced as the construction is. -/
theorem Built.isTraced_eq (hb : Built p d a) : a.isTraced = d.traced?.isSome := by
  rw [isTraced, hb.results, Discovered.traced?, Option.isSome_map, Option.isSome_map]

section States

variable {ends : Nat → Nat} {threads : List Thread} {injecting : Bool} {tracker : BitSet}
  {moves : List Move} {s : State}

/-- The boundaries of a move touch captures of the pattern. -/
theorem Searches.below (hn : ∀ id, (n.tree.kind id).Numbered ends n.groupCount [])
    (hs : Searches p d threads injecting tracker moves s) {m : Move} (hm : m ∈ moves) :
    m.transition.boundaries.Below n.groupCount := by
  obtain ⟨q, ts, -, hts, hmem⟩ := hs.ofThreads.exists_transitions hm
  exact Nfa.below_of_mem_transitions hn hts hmem

theorem Built.hasBoundaries (hb : Built p d a) {i : Nat} {b : Boundaries}
    (hi : d.boundaries.get? i = some b) (h : b.Below n.groupCount) : a.HasBoundaries i :=
  ⟨b, by rw [hb.boundaries]; exact hi, by rw [hb.groups]; exact h⟩

/-- The match of a move is reported by what exists. -/
theorem Built.acceptInRange (hb : Built p d a) (hfit : d.ResultsFit)
    (hn : ∀ id, (n.tree.kind id).Numbered ends n.groupCount [])
    (hs : Searches p d threads injecting tracker moves s) {m : Move} (hm : m ∈ moves) {x : Accept}
    (hx : Reports d m x) : a.AcceptInRange s x := by
  cases hg : d.traced? with
  | none =>
    obtain ⟨b, rfl, hget⟩ := hx.tracked hg
    have hnone : d.tracer = none := Option.map_eq_none_iff.mp hg
    refine ⟨by rw [hb.results, hnone]; rfl, ?_, hb.hasBoundaries hget (hs.below hn hm)⟩
    rw [hs.slots, hg]
    simpa using hs.ofThreads.slot_lt hm
  | some groups =>
    obtain ⟨i, rfl, hget⟩ := hx.traced groups hg
    obtain ⟨finder, hfinder, hi⟩ := Option.bind_eq_some_iff.mp hget
    have hlt := Interner.lt_size hi
    obtain ⟨hsize, hmax⟩ := hfit finder hfinder
    refine ⟨by omega, finder.results.items, ?_, hlt⟩
    rw [hb.results, hfinder]
    rfl

/-- What the moves lead to exists. -/
theorem Built.transitionInRange (hb : Built p d a) (hfit : d.ResultsFit)
    (hn : ∀ id, (n.tree.kind id).Numbered ends n.groupCount [])
    (hs : Searches p d threads injecting tracker moves s) {t : Transition}
    (ht : t ∈ s.transitions) : a.TransitionInRange s t := by
  obtain ⟨c, hleads⟩ := hs.exists_leads ht
  obtain ⟨ts, us, hreal, hus, htarget⟩ := hleads.target
  replace hus : t.updates = us.reverse := hus
  refine ⟨?_, fun u hu => ?_, fun x hx => ?_⟩
  · rw [hus, List.length_reverse, hreal.length_updates]
    rcases htarget with ⟨rfl, hdead⟩ | ⟨-, hkey⟩
    · rw [show t.target = dead from hdead, hb.slots_eq hb.valid.dead]
      rfl
    · rw [hb.slots_eq (show d.keys.get? t.target = _ from hkey)]
      simp [Key.threads]
  · obtain ⟨arrival, harrival, hg, b, rfl, hget⟩ :=
      hreal.mem_update (List.mem_reverse.mp (hus ▸ hu))
    rcases mem_arrived harrival with hmove | ⟨m, hm, hmove⟩
    · refine ⟨fun origin ho => ?_, hb.hasBoundaries hget ?_⟩
      · rw [hmove] at ho
        cases ho
      · rw [Arrival.boundaries, hmove]
        exact .empty
    · refine ⟨fun origin ho => ?_, hb.hasBoundaries hget ?_⟩
      · rw [hmove] at ho
        obtain rfl := Option.some.inj ho
        rw [hs.slots, hg]
        simpa using hs.ofThreads.slot_lt hm
      · rw [Arrival.boundaries, hmove]
        exact hs.below hn hm
  · have haccept := hleads.accept
    split at haccept
    · rw [show t.accept = none from haccept] at hx
      cases hx
    · rename_i m hfirst
      obtain ⟨y, hy, hreports⟩ := haccept
      obtain rfl := Option.some.inj ((show t.accept = some y from hy).symm.trans hx)
      have hm : m ∈ moves := (List.mem_filter.mp (List.mem_of_find?_eq_some hfirst)).1
      exact hb.acceptInRange hfit hn hs hm hreports

/-- What a state that searches names exists. -/
theorem Built.searchInRange (hb : Built p d a) (hfit : d.ResultsFit)
    (hn : ∀ id, (n.tree.kind id).Numbered ends n.groupCount []) (hcount : threads.length ≤ 255)
    (hs : Searches p d threads injecting tracker moves s) : a.StateInRange s where
  successors j hj := by
    obtain ⟨k, hk⟩ := hs.successors j hj
    exact hb.lt_size hk
  ascends := hs.ascends
  transitions t ht := hb.transitionInRange hfit hn hs ht
  endAccept x hx := by
    have haccept := hs.endAccept
    split at haccept
    · cases haccept.symm.trans hx
    · rename_i m hfirst
      obtain ⟨y, hy, hreports⟩ := haccept
      obtain rfl := Option.some.inj (hy.symm.trans hx)
      exact hb.acceptInRange hfit hn hs (List.mem_of_find?_eq_some hfirst) hreports
  slots := by
    rw [hs.slots]
    split <;> omega
  traced htraced := by
    rw [hb.isTraced_eq] at htraced
    refine ⟨by rw [hs.slots, if_pos htraced], fun t ht => ?_⟩
    obtain ⟨c, hleads⟩ := hs.exists_leads ht
    obtain ⟨ts, us, hreal, hus, -⟩ := hleads.target
    have hlength := hreal.length_updates
    rw [if_pos htraced] at hlength
    rw [show t.updates = us.reverse from hus, List.eq_nil_of_length_eq_zero hlength]
    rfl
  lead e he := by
    rw [hs.entry] at he
    cases he

/-- What a state that reads before a search names exists. -/
theorem Built.leadInRange (hb : Built p d a) (hs : ReadsAhead p d tracker s) :
    a.StateInRange s := by
  obtain ⟨hslots, hend, hsilent⟩ := hs.silent
  have htarget : ∀ t ∈ s.transitions, ∃ tracker, d.keys.get? t.target = some (.lead tracker) := by
    intro t ht
    have htransitions := hs.transitions
    split at htransitions
    · rw [htransitions] at ht
      cases ht
    · have hc : t.range.contains t.range.lo = true :=
        CodePointRange.contains_iff.mpr ⟨Nat.le_refl _, t.range.lo_le_hi⟩
      obtain ⟨u, hu, hk⟩ := htransitions t.range.lo
        (Nat.le_trans t.range.lo_le_hi (hs.ascends.le_max t ht))
      rw [State.transition?, hs.ascends.find?_eq ht hc] at hu
      obtain rfl := Option.some.inj hu
      exact ⟨_, hk⟩
  refine ⟨fun j hj => ?_, hs.ascends, fun t ht => ⟨?_, ?_, ?_⟩, ?_, by omega,
    fun _ => ⟨hslots, fun t ht => (hsilent t ht).1⟩, fun e he => ⟨?_, fun t ht => ?_⟩⟩
  · obtain ⟨k, hk⟩ := hs.successors j hj
    exact hb.lt_size hk
  · obtain ⟨tracker', hk⟩ := htarget t ht
    rw [(hsilent t ht).1, hb.slots_eq hk]
    simp [Key.threads]
  · rw [(hsilent t ht).1]
    exact fun u hu => absurd hu List.not_mem_nil
  · intro accept haccept
    cases (hsilent t ht).2.symm.trans haccept
  · intro accept haccept
    cases hend.symm.trans haccept
  · obtain ⟨e', he', root, hk, -⟩ := hs.entry
    obtain rfl := Option.some.inj (he'.symm.trans he)
    exact hb.entry_of_search hk
  · obtain ⟨tracker', hk⟩ := htarget t ht
    exact hb.entry_of_lead hk

end States

/-- Whatever is named by what the construction finishes exists. -/
theorem Built.inRange {ends : Nat → Nat} (hb : Built p d a) (hfit : d.ResultsFit)
    (hn : ∀ id, (n.tree.kind id).Numbered ends n.groupCount []) (hthreads : p.maxThreads ≤ 255) :
    a.InRange where
  dead := by
    rw [Array.getElem?_eq_getElem hb.root_lt.1]
    have hdead : a.state Dfa.dead = {} := hb.expands _ _ hb.valid.dead
    rw [state, Array.getD_eq_getD_getElem?, Array.getElem?_eq_getElem hb.root_lt.1] at hdead
    exact congrArg some hdead
  rootStart := by
    obtain ⟨t, hk, -⟩ := hb.rootStart
    exact ⟨hb.root_lt.2.1, hb.entry_of_search hk⟩
  rootMid := ⟨hb.root_lt.2.2, hb.entry_of_lead hb.rootMid⟩
  states i hi := by
    replace hi : i < d.keys.size := hb.size ▸ hi
    have hk : d.keys.get? i = some d.keys.items[i] := Array.getElem?_eq_getElem hi
    have hx := hb.expands i _ hk
    have hcount := (hb.valid.keys i _ hk).count
    generalize d.keys.items[i] = k at hk hx hcount
    cases k with
    | dead =>
      rw [show a.state i = {} from hx]
      exact a.stateInRange_empty
    | lead tracker => exact hb.leadInRange hx
    | search threads injecting tracker =>
      obtain ⟨moves, hs⟩ := hx
      exact hb.searchInRange hfit hn (by simp only [Key.threads] at hcount; omega) hs

end Build

/-! ## What is split -/

section Split

variable {d d' : Dfa} {s : Splitting} {f : StateId → StateId}

theorem InRange.state (h : d.InRange) (i : StateId) : d.StateInRange (d.state i) := by
  by_cases hi : i < d.size
  · exact h.states i hi
  · rw [Dfa.state, Array.getD_eq_getD_getElem?, Array.getElem?_eq_none_iff.mpr (Nat.le_of_not_lt hi)]
    exact d.stateInRange_empty

theorem InRange.closed (h : d.InRange) : Closed d where
  successors i := (h.state i).successors
  rootStart := h.rootStart.1
  rootMid := h.rootMid.1
  dead_lt := (Array.getElem?_eq_some_iff.mp h.dead).1
  state_dead := by rw [Dfa.state, Array.getD_eq_getD_getElem?, h.dead, Option.getD_some]

/-- A copy of a transition names the same slots and entries. -/
theorem Covers.transitionInRange (hs : Covers d s f) {st : State} {t : Transition}
    (h : d.TransitionInRange (st.mapSuccessors f) { t with target := f t.target }) :
    (d.withStates s).TransitionInRange st t where
  length_updates := h.length_updates.trans (by rw [hs.state]; rfl)
  updates := h.updates
  accept := h.accept

/-- A copy of a state names the same slots and entries, and copies of what the state leads to. -/
theorem Covers.stateInRange (hs : Covers d s f) {i : StateId} (h : d.StateInRange (d.state (f i))) :
    (d.withStates s).StateInRange ((d.withStates s).state i) := by
  have hclosed : ∀ j ∈ ((d.withStates s).state i).successors, j < s.size := hs.closed i
  rw [hs.state] at h
  generalize (d.withStates s).state i = st at h hclosed
  have hmem : ∀ t ∈ st.transitions,
      { t with target := f t.target } ∈ (st.mapSuccessors f).transitions :=
    fun t ht => List.mem_map.mpr ⟨t, ht, rfl⟩
  have hentry : ∀ i, (d.state (f i)).entry = ((d.withStates s).state i).entry.map f := by
    intro i
    rw [hs.state]
    rfl
  refine ⟨hclosed, ⟨List.pairwise_map.mp h.ascends.pairwise, fun t ht => ?_⟩, fun t ht => ?_,
    h.endAccept, h.slots, fun htraced => ⟨(h.traced htraced).1, fun t ht => ?_⟩, fun e he => ?_⟩
  · have hle := h.ascends.le_max _ (hmem t ht)
    exact hle
  · exact hs.transitionInRange (h.transitions _ (hmem t ht))
  · have hupdates := (h.traced htraced).2 _ (hmem t ht)
    exact hupdates
  · have hmap : (st.mapSuccessors f).entry = some (f e) := congrArg (Option.map f) he
    obtain ⟨hnone, hlead⟩ := h.lead _ hmap
    refine ⟨Option.map_eq_none_iff.mp ((hentry e).symm.trans hnone), fun t ht => ?_⟩
    have hsome := hlead _ (hmem t ht)
    rwa [hentry, Option.isSome_map] at hsome

/-- Whatever an automaton names whose loops were split exists. -/
theorem InRange.splitLoops (h : d.InRange) {maxStates : Nat} (hd : d.splitLoops maxStates = .ok d') :
    d'.InRange := by
  obtain ⟨s, f, hs, rfl⟩ := exists_covers h.closed hd
  refine ⟨?_, ⟨hs.rootStart_lt, ?_⟩, ⟨hs.rootMid_lt, ?_⟩, fun i _ => hs.stateInRange (h.state _)⟩
  · have hdead := hs.state_eq_of_dead hs.dead
    rw [Dfa.state, Array.getD_eq_getD_getElem?] at hdead
    have hget := Array.getElem?_eq_getElem hs.dead_lt
    rw [show (d.withStates s).states = s.states from rfl, hget] at hdead
    exact hget.trans (congrArg some hdead)
  · have hentry := h.rootStart.2
    rw [← hs.rootStart, hs.state] at hentry
    exact Option.map_eq_none_iff.mp hentry
  · have hentry := h.rootMid.2
    rw [← hs.rootMid, hs.state] at hentry
    rwa [State.mapSuccessors, Option.isSome_map] at hentry

end Split

end PatternAutomata.Dfa
