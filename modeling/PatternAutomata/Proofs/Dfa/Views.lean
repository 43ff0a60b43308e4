import PatternAutomata.Proofs.Dfa.Expansion

/-!
# What keys stand for

A key names states of the nondeterministic automaton by their numbers, and with traces its threads
have captures. Its view is without both. The views of a finished automaton are closed: what any view
leads to on a character is one of them, whatever numbers a construction may use and whether it
traces captures or not.
-/

namespace PatternAutomata.Dfa

variable {n : Nfa}

/-- What a state of the automaton stands for. -/
inductive View where
  | dead
  | lead (tracker : BitSet)
  | search (states : List Nfa.State) (injecting : Bool) (tracker : BitSet)
deriving DecidableEq

/-! ## The view of a key -/

/-- The key of an automaton with slots, in which threads have no captures. -/
def Key.Plain (k : Key) : Prop := ∀ t ∈ k.threads, t.captures = #[]

namespace Discovered

variable {d d' : Discovered n} {threads : List Thread} {injecting : Bool} {tracker : BitSet}
  {k k' : Key} {v : View}

/-- The threads are those of the states. -/
def HasStates (d : Discovered n) : List Thread → List Nfa.State → Prop :=
  List.Forall₂ fun t s => d.states.state? t.state = some s

/-- What a key stands for, if its states are known. -/
def view (d : Discovered n) : Key → Option View
  | .dead => some .dead
  | .lead tracker => some (.lead tracker)
  | .search threads injecting tracker =>
    (threads.mapM fun t => d.states.state? t.state).map (.search · injecting tracker)

theorem view_search_iff : d.view (.search threads injecting tracker) = some v ↔
    ∃ ss, d.HasStates threads ss ∧ v = .search ss injecting tracker := by
  rw [view, Option.map_eq_some_iff]
  simp only [mapM_eq_some_iff]
  exact exists_congr fun ss => and_congr_right fun _ => eq_comm

theorem view_eq_dead (h : d.view k = some .dead) : k = .dead := by
  cases k with
  | dead => rfl
  | lead tracker => cases h
  | search threads injecting tracker =>
    obtain ⟨_, -, h⟩ := view_search_iff.mp h
    cases h

theorem view_eq_lead (h : d.view k = some (.lead tracker)) : k = .lead tracker := by
  cases k with
  | dead => cases h
  | lead tracker =>
    cases h
    rfl
  | search threads injecting tracker =>
    obtain ⟨_, -, h⟩ := view_search_iff.mp h
    cases h

theorem view_eq_search {ss : List Nfa.State} (h : d.view k = some (.search ss injecting tracker)) :
    ∃ threads, k = .search threads injecting tracker ∧ d.HasStates threads ss := by
  cases k with
  | dead => cases h
  | lead tracker => cases h
  | search threads injecting tracker =>
    obtain ⟨ss, hss, h⟩ := view_search_iff.mp h
    cases h
    exact ⟨threads, rfl, hss⟩

theorem HasStates.mono {ss : List Nfa.State} (h : d.HasStates threads ss) (hd : d.Extends d') :
    d'.HasStates threads ss :=
  List.Forall₂.imp (fun _ _ => hd.states _ _) h

theorem HasStates.unique {ss ss' : List Nfa.State} (h : d.HasStates threads ss)
    (h' : d.HasStates threads ss') : ss = ss' :=
  Option.some_inj.mp ((mapM_eq_some_iff.mpr h).symm.trans (mapM_eq_some_iff.mpr h'))

theorem HasStates.mem {ss : List Nfa.State} (h : d.HasStates threads ss) {s : Nfa.State}
    (hs : s ∈ ss) : ∃ i, d.states.state? i = some s :=
  let ⟨t, _, ht⟩ := exists_of_mem_right h hs
  ⟨t.state, ht⟩

theorem HasStates.known {ss : List Nfa.State} (h : d.HasStates threads ss) :
    ∀ t ∈ threads, ∃ s, d.states.state? t.state = some s := by
  intro t ht
  obtain ⟨s, -, hs⟩ := exists_of_mem_right h.flip ht
  exact ⟨s, hs⟩

theorem view_mem {ss : List Nfa.State} {s : Nfa.State}
    (h : d.view k = some (.search ss injecting tracker)) (hs : s ∈ ss) :
    ∃ i, d.states.state? i = some s := by
  obtain ⟨threads, -, hss⟩ := view_eq_search h
  exact hss.mem hs

theorem view_mono (h : d.view k = some v) (hd : d.Extends d') : d'.view k = some v := by
  cases k with
  | dead => exact h
  | lead tracker => exact h
  | search threads injecting tracker =>
    obtain ⟨ss, hss, rfl⟩ := view_search_iff.mp h
    exact view_search_iff.mpr ⟨ss, hss.mono hd, rfl⟩

/-- Without captures, a state has only one key. -/
theorem view_inj (h : d.view k = some v) (h' : d.view k' = some v) (hk : k.Plain)
    (hk' : k'.Plain) : k = k' := by
  have hthreads : ∀ {ts ts' : List Thread} {ss : List Nfa.State}, d.HasStates ts ss →
      d.HasStates ts' ss → (∀ t ∈ ts, t.captures = #[]) → (∀ t ∈ ts', t.captures = #[]) →
      ts = ts' := by
    intro ts ts' ss hts hts' hplain hplain'
    induction hts generalizing ts' with
    | nil => exact (List.forall₂_nil_right_iff.mp hts').symm
    | @cons t s ts ss ht _ ih =>
      obtain ⟨t', ts', ht', hrest, rfl⟩ := List.forall₂_cons_right_iff.mp hts'
      have hstate : t.state = t'.state := Interner.get?_inj ht ht'
      have hcaptures : t.captures = t'.captures :=
        (hplain t (by simp)).trans (hplain' t' (by simp)).symm
      rw [show t = t' by cases t; cases t'; simp_all, ih hrest (fun u hu => hplain u (by simp [hu]))
        fun u hu => hplain' u (by simp [hu])]
  cases v with
  | dead => rw [view_eq_dead h, view_eq_dead h']
  | lead tracker => rw [view_eq_lead h, view_eq_lead h']
  | search ss injecting tracker =>
    obtain ⟨ts, rfl, hs⟩ := view_eq_search h
    obtain ⟨ts', rfl, hs'⟩ := view_eq_search h'
    rw [hthreads hs hs' hk hk']

end Discovered

/-! ## Where a view leads -/

/-- The states that transitions lead to, up to the first that matches. -/
def targets (context : Context) : List Nfa.Transition → List Nfa.State
  | [] => []
  | t :: ts =>
    match t.target with
    | .final => []
    | .next main lookAheads => { main, lookAheads, context } :: targets context ts

/-- Adds a state, unless it is there. -/
def joinState (ss : List Nfa.State) (s : Nfa.State) : List Nfa.State :=
  if s ∈ ss then ss else s :: ss

/-- Whether further matches may begin after the character `c`. -/
def goesOnInjecting (ts : List Nfa.Transition) (injecting : Bool) (c : Nat) : Bool :=
  injecting && ((ts.filter (·.cls.contains c)).find? (·.target = .final)).isNone

/-- The states that are reached by transitions on the character `c`, the last one first. -/
def reached (n : Nfa) (ts : List Nfa.Transition) (injecting : Bool) (tracker : BitSet) (c : Nat) :
    List Nfa.State :=
  let context := n.contextOf false (n.lookBehinds.advance tracker c)
  let ss := (targets context (ts.filter (·.cls.contains c))).foldl joinState []
  if goesOnInjecting ts injecting c then joinState ss (n.initial context) else ss

theorem mem_joinState {ss : List Nfa.State} {s s' : Nfa.State} :
    s ∈ joinState ss s' ↔ s ∈ ss ∨ s = s' := by
  unfold joinState
  split
  · rename_i h
    exact ⟨.inl, fun hs => hs.elim id fun heq => heq ▸ h⟩
  · rw [List.mem_cons, or_comm]

theorem mem_foldl_joinState {ss ts : List Nfa.State} {s : Nfa.State} :
    s ∈ ts.foldl joinState ss ↔ s ∈ ss ∨ s ∈ ts := by
  induction ts generalizing ss with
  | nil => simp
  | cons t ts ih => rw [List.foldl_cons, ih, mem_joinState, List.mem_cons, or_assoc]

theorem mem_reached_of_targets {ts : List Nfa.Transition} {injecting : Bool} {tracker : BitSet}
    {c : Nat} {s : Nfa.State}
    (h : s ∈ targets (n.contextOf false (n.lookBehinds.advance tracker c))
      (ts.filter (·.cls.contains c))) : s ∈ reached n ts injecting tracker c := by
  have hmem : s ∈ List.foldl joinState [] _ := mem_foldl_joinState.mpr (.inr h)
  unfold reached
  split
  · exact mem_joinState.mpr (.inl hmem)
  · exact hmem

theorem initial_mem_reached {ts : List Nfa.Transition} {injecting : Bool} {tracker : BitSet}
    {c : Nat} (h : goesOnInjecting ts injecting c = true) :
    n.initial (n.contextOf false (n.lookBehinds.advance tracker c)) ∈
      reached n ts injecting tracker c := by
  unfold reached
  rw [if_pos h]
  exact mem_joinState.mpr (.inr rfl)

section Arrived

open Build

variable {moves : List Move} {injecting : Bool} {tracker : BitSet} {c : Nat} {context : Context}

theorem map_state_arrivals :
    (arrivals context moves).map (·.state) = targets context (moves.map (·.transition)) := by
  induction moves with
  | nil => rfl
  | cons m moves ih =>
    rw [List.map_cons]
    unfold arrivals targets
    cases m.transition.target with
    | final => rfl
    | next main lookAheads => exact congrArg _ ih

theorem map_state_join (as : List Arrival) (a : Arrival) :
    (Arrival.join as a).map (·.state) = joinState (as.map (·.state)) a.state := by
  have hany : as.any (·.state = a.state) = true ↔ a.state ∈ as.map (·.state) := by simp
  unfold Arrival.join joinState
  by_cases h : a.state ∈ as.map (·.state)
  · rw [if_pos (hany.mpr h), if_pos h]
  · rw [if_neg fun h' => h (hany.mp h'), if_neg h, List.map_cons]

theorem map_state_foldl_join (as bs : List Arrival) :
    (bs.foldl Arrival.join as).map (·.state) =
      (bs.map (·.state)).foldl joinState (as.map (·.state)) := by
  induction bs generalizing as with
  | nil => rfl
  | cons b bs ih => rw [List.foldl_cons, ih, map_state_join, List.map_cons, List.foldl_cons]

theorem stillInjecting_eq :
    stillInjecting moves injecting c = goesOnInjecting (moves.map (·.transition)) injecting c := by
  unfold stillInjecting goesOnInjecting firstFinal allowing
  rw [List.filter_map, List.find?_map, Option.isNone_map]
  rfl

theorem map_transition_allowing : (allowing moves c).map (·.transition) =
    (moves.map (·.transition)).filter (·.cls.contains c) := by
  rw [List.filter_map]
  rfl

/-- The states at which moves arrive are reached by their transitions. -/
theorem map_state_arrived : (arrived n moves injecting tracker c).map (·.state) =
    reached n (moves.map (·.transition)) injecting tracker c := by
  unfold arrived reached
  simp only [stillInjecting_eq]
  split
  · rw [map_state_join, map_state_foldl_join, map_state_arrivals, map_transition_allowing]
    rfl
  · rw [map_state_foldl_join, map_state_arrivals, map_transition_allowing]
    rfl

end Arrived

/-! ## Closed views -/

/-- The transitions of states. -/
def Outgoing (n : Nfa) (ss : List Nfa.State) (ts : List Nfa.Transition) : Prop :=
  ∃ tss, List.Forall₂ (fun s ts => n.transitions s = .ok ts) ss tss ∧ ts = tss.flatten

/-- What a view with the transitions `ts` leads to on a character belongs to the views, and is not
too large. -/
def View.LeadsTo (n : Nfa) (U : View → Prop) (maxThreads : Nat) (ts : List Nfa.Transition)
    (injecting : Bool) (tracker : BitSet) (c : Nat) : Prop :=
  (reached n ts injecting tracker c).length ≤ maxThreads ∧
    (reached n ts injecting tracker c ≠ [] →
      U (.search (reached n ts injecting tracker c).reverse (goesOnInjecting ts injecting c)
        (n.lookBehinds.advance tracker c)))

/-- Views that lead to each other only, from the roots on, by at most `maxThreads` threads. -/
structure View.Closed (n : Nfa) (sticky : Bool) (maxThreads : Nat) (U : View → Prop) : Prop where
  dead : U .dead
  rootStart : U (.search [n.initial (n.contextOf n.usesStart n.lookBehinds.initial)] (!sticky)
    n.lookBehinds.initial)
  rootMid : U (.lead n.lookBehinds.initial)
  root : ∀ tracker, U (.lead tracker) →
    U (.search [n.initial (n.contextOf false tracker)] (!sticky) tracker)
  lead : n.lookBehinds.isEmpty = false → ∀ tracker, U (.lead tracker) → ∀ c ≤ maxCodePoint,
    U (.lead (n.lookBehinds.advance tracker c))
  search : ∀ ss injecting tracker, U (.search ss injecting tracker) → ∃ ts, Outgoing n ss ts ∧
    ∀ c ≤ maxCodePoint, LeadsTo n U maxThreads ts injecting tracker c

/-- The views of the keys that were discovered. -/
def Discovered.Viewed (d : Discovered n) (v : View) : Prop :=
  ∃ i k, d.keys.get? i = some k ∧ d.view k = some v

namespace Build

variable {p : Plan} {d : Discovered n} {a : Dfa}

theorem MovesOf.outgoing {slot : Nat} {threads : List Thread} {moves : List Move}
    (h : MovesOf d slot threads moves) :
    ∃ ss, d.HasStates threads ss ∧ Outgoing n ss (moves.map (·.transition)) := by
  induction h with
  | nil => exact ⟨[], .nil, [], .nil, rfl⟩
  | @cons slot t s trs ts moves hs htrs _ ih =>
    obtain ⟨ss, hss, tss, htss, heq⟩ := ih
    refine ⟨s :: ss, .cons hs hss, trs :: tss, .cons htrs htss, ?_⟩
    rw [List.map_append, heq, List.map_map, List.flatten_cons]
    exact congrArg (· ++ _) (List.map_id' trs)

theorem Realized.hasStates {as : List Arrival} {ts : List Thread} {us : List SlotUpdate}
    (h : Realized d as ts us) : d.HasStates ts (as.map (·.state)) := by
  induction h with
  | nil => exact .nil
  | cons h _ ih => exact .cons h.state ih

theorem RootKey.viewed {atStart : Bool} {tracker : BitSet} {i : StateId}
    (h : RootKey p d atStart tracker i) :
    d.Viewed (.search [n.initial (n.contextOf atStart tracker)] (!p.sticky) tracker) := by
  obtain ⟨t, hk, hs, -⟩ := h
  exact ⟨i, _, hk, Discovered.view_search_iff.mpr ⟨_, .cons hs .nil, rfl⟩⟩

/-- The views of a finished automaton are closed. -/
theorem Built.viewed_closed (h : Built p d a) :
    View.Closed n p.sticky p.maxThreads d.Viewed where
  dead := ⟨_, _, h.valid.dead, rfl⟩
  rootStart := h.rootStart.viewed
  rootMid := ⟨_, _, h.rootMid, rfl⟩
  root := by
    rintro tracker ⟨i, k, hk, hv⟩
    obtain rfl := Discovered.view_eq_lead hv
    obtain ⟨e, -, hroot⟩ := (show ReadsAhead p d tracker (a.state i) from h.expands i _ hk).entry
    exact hroot.viewed
  lead := by
    rintro hempty tracker ⟨i, k, hk, hv⟩ c hc
    obtain rfl := Discovered.view_eq_lead hv
    have htransitions :=
      (show ReadsAhead p d tracker (a.state i) from h.expands i _ hk).transitions
    rw [if_neg (by simp [hempty])] at htransitions
    obtain ⟨t, -, ht⟩ := htransitions c hc
    exact ⟨_, _, ht, rfl⟩
  search := by
    rintro ss injecting tracker ⟨i, k, hk, hv⟩
    obtain ⟨threads, rfl, hss⟩ := Discovered.view_eq_search hv
    obtain ⟨moves, hsearch⟩ := h.expands i _ hk
    obtain ⟨ss', hss', hout⟩ := hsearch.ofThreads.outgoing
    obtain rfl := hss.unique hss'
    refine ⟨_, hout, fun c hc => ?_⟩
    obtain ⟨o, hleads, -⟩ := hsearch.transitions c hc
    have hcount := hleads.count
    obtain ⟨ts, us, hr, -, hkey⟩ := hleads.target
    rw [View.LeadsTo, ← map_state_arrived, ← stillInjecting_eq, List.length_map]
    refine ⟨hcount, fun hne => ?_⟩
    rcases hkey with ⟨rfl, -⟩ | ⟨-, hkey⟩
    · have hlength := hr.length_eq
      rw [List.length_nil, List.length_eq_zero_iff] at hlength
      rw [hlength] at hne
      exact absurd rfl hne
    · exact ⟨_, _, hkey, Discovered.view_search_iff.mpr ⟨_, List.rel_reverse hr.hasStates, rfl⟩⟩

end Build

end PatternAutomata.Dfa
