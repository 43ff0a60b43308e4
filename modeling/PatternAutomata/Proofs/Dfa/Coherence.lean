import PatternAutomata.Proofs.Dfa.Interrupted
import PatternAutomata.Proofs.Dfa.Views
import PatternAutomata.Proofs.Nfa.Visiting

/-!
# Coherent lists of threads

A step works out one context and shares it among all threads that arrive. A thread is dropped only
if a better one has its state. So the threads of a key never repeat a state, they agree on what they
observe, and what they observe is what the tracker says; if further threads may begin, the last one
has just begun. This holds of every key that a construction numbers, however it ends.
-/

namespace PatternAutomata.Dfa

variable {n : Nfa} {ss : List Nfa.State} {s : Nfa.State} {ts : List Nfa.Transition}
  {context : Context} {injecting : Bool} {tracker : BitSet} {c : Nat}

/-! ## The states that are reached -/

theorem nodup_joinState (h : ss.Nodup) (s : Nfa.State) : (joinState ss s).Nodup := by
  unfold joinState
  split
  · exact h
  · rename_i hs
    exact List.nodup_cons.mpr ⟨hs, h⟩

theorem nodup_reached : (reached n ts injecting tracker c).Nodup := by
  have hfold : ∀ (later ss : List Nfa.State), ss.Nodup → (later.foldl joinState ss).Nodup := by
    intro later
    induction later with
    | nil => exact fun _ h => h
    | cons s later ih => exact fun ss h => ih _ (nodup_joinState h s)
  unfold reached
  split
  · exact nodup_joinState (hfold _ _ .nil) _
  · exact hfold _ _ .nil

theorem mem_targets (h : s ∈ targets context ts) :
    ∃ t ∈ ts, ∃ main lookAheads, t.target = .next main lookAheads ∧ s = { main, lookAheads, context } := by
  induction ts with
  | nil => cases h
  | cons t ts ih =>
    unfold targets at h
    cases ht : t.target with
    | final => simp [ht] at h
    | next main lookAheads =>
      simp only [ht] at h
      rcases List.mem_cons.mp h with rfl | h
      · exact ⟨t, by simp, main, lookAheads, ht, rfl⟩
      · obtain ⟨t', ht', h'⟩ := ih h
        exact ⟨t', by simp [ht'], h'⟩

/-- A state is reached by a transition, or it is the one that is added. -/
theorem mem_reached (h : s ∈ reached n ts injecting tracker c) :
    let context := n.contextOf false (n.lookBehinds.advance tracker c)
    s = n.initial context ∨ s ∈ targets context (ts.filter (·.cls.contains c)) := by
  unfold reached at h
  split at h
  · rcases mem_joinState.mp h with h | h
    · exact .inr ((mem_foldl_joinState.mp h).resolve_left List.not_mem_nil)
    · exact .inl h
  · exact .inr ((mem_foldl_joinState.mp h).resolve_left List.not_mem_nil)

theorem context_of_mem_reached (h : s ∈ reached n ts injecting tracker c) :
    s.context = n.contextOf false (n.lookBehinds.advance tracker c) := by
  rcases mem_reached h with rfl | h
  · rfl
  · obtain ⟨_, -, _, _, -, rfl⟩ := mem_targets h
    rfl

theorem exists_of_outgoing (hout : Outgoing n ss ts) {t : Nfa.Transition} (ht : t ∈ ts) :
    ∃ s ∈ ss, ∃ later, n.transitions s = .ok later ∧ t ∈ later := by
  obtain ⟨tss, htss, rfl⟩ := hout
  obtain ⟨later, hlater, ht⟩ := List.mem_flatten.mp ht
  obtain ⟨s, hs, hok⟩ := exists_of_mem_right htss hlater
  exact ⟨s, hs, later, hok, ht⟩

section Arise

variable (hout : Outgoing n ss ts) (harise : ∀ s ∈ ss, n.Arises s)
include hout harise

theorem arises_of_reached (h : s ∈ reached n ts injecting tracker c) : n.Arises s := by
  rcases mem_reached h with rfl | h
  · exact .initial _
  · obtain ⟨t, ht, main, lookAheads, htarget, rfl⟩ := mem_targets h
    obtain ⟨s, hs, later, hlater, ht⟩ := exists_of_outgoing hout (List.mem_of_mem_filter ht)
    exact .next (harise s hs) hlater ht htarget _

/-- No transition leads to where a match begins. -/
theorem ne_initial_of_targets (hn : n.tree.WellFormed)
    (h : s ∈ targets context (ts.filter (·.cls.contains c))) : s ≠ n.initial context := by
  rintro rfl
  obtain ⟨t, ht, main, lookAheads, htarget, heq⟩ := mem_targets h
  obtain ⟨s, hs, later, hlater, ht⟩ := exists_of_outgoing hout (List.mem_of_mem_filter ht)
  obtain rfl : n.tree.root = main := congrArg Nfa.State.main heq
  obtain ⟨g, hg⟩ := hn.root_group
  rcases (Nfa.goals_of_transitions hn ((harise s hs).fits hn) hlater ht htarget).1 with hfound | hclass
  · have := hn.matchFound
    rw [← hfound, hg] at this
    cases this
  · obtain ⟨-, set, hset⟩ := hclass
    cases hg.symm.trans hset

end Arise

/-! ## Coherence -/

/-- The thread with which a search begins after what the tracker has read. -/
def Root (p : Plan) (d : Discovered n) (atStart : Bool) (threads : List Thread) (injecting : Bool)
    (tracker : BitSet) : Prop :=
  injecting = (!p.sticky) ∧ ∃ t, threads = [t] ∧ d.Begins (n.contextOf atStart tracker) t

/-- The threads have the states `ss`, and all observe the same. -/
structure CoherentIn (p : Plan) (d : Discovered n) (ss : List Nfa.State) (context : Context)
    (threads : List Thread) (injecting : Bool) (tracker : BitSet) : Prop where
  states : d.HasStates threads ss
  arise : ∀ s ∈ ss, n.Arises s
  nonempty : threads ≠ []
  distinct : ss.Nodup
  count : threads.length ≤ p.maxThreads ∨ ∃ atStart, Root p d atStart threads injecting tracker
  shared : ∀ s ∈ ss, s.context = context
  satisfied : context.satisfied = n.lookBehinds.satisfied tracker
  atStart : context.atStart = true → n.usesStart = true ∧ tracker = n.lookBehinds.initial ∧
    Root p d true threads injecting tracker
  injecting : injecting = true → p.sticky = false ∧
    ∃ t, threads.getLast? = some t ∧ d.Begins context t

def Coherent (p : Plan) (d : Discovered n) (threads : List Thread) (injecting : Bool)
    (tracker : BitSet) : Prop := ∃ ss context, CoherentIn p d ss context threads injecting tracker

section Coherent

open Build

variable {p : Plan} {d d' : Discovered n} {threads : List Thread} {moves : List Move}

theorem Root.mono {atStart : Bool} (h : Root p d atStart threads injecting tracker)
    (hd : d.Extends d') : Root p d' atStart threads injecting tracker := by
  obtain ⟨hinj, t, ht, hbegins⟩ := h
  exact ⟨hinj, t, ht, hbegins.mono hd⟩

theorem CoherentIn.mono (h : CoherentIn p d ss context threads injecting tracker)
    (hd : d.Extends d') : CoherentIn p d' ss context threads injecting tracker where
  states := h.states.mono hd
  arise := h.arise
  nonempty := h.nonempty
  distinct := h.distinct
  count := h.count.imp_right fun ⟨atStart, hroot⟩ => ⟨atStart, hroot.mono hd⟩
  shared := h.shared
  satisfied := h.satisfied
  atStart hstart :=
    let ⟨huses, htracker, hroot⟩ := h.atStart hstart
    ⟨huses, htracker, hroot.mono hd⟩
  injecting hinj :=
    let ⟨hsticky, t, ht, hbegins⟩ := h.injecting hinj
    ⟨hsticky, t, ht, hbegins.mono hd⟩

/-- The thread of a root agrees with itself. -/
theorem coherentIn_root {t : Thread} {atStart : Bool}
    (ht : d.Begins (n.contextOf atStart tracker) t)
    (h : atStart = true → n.usesStart = true ∧ tracker = n.lookBehinds.initial) :
    CoherentIn p d [n.initial (n.contextOf atStart tracker)] (n.contextOf atStart tracker) [t]
      (!p.sticky) tracker where
  states := .cons ht.state .nil
  arise := List.forall_mem_singleton.mpr (.initial _)
  nonempty := List.cons_ne_nil _ _
  distinct := List.nodup_singleton _
  count := .inr ⟨atStart, rfl, t, rfl, ht⟩
  shared := List.forall_mem_singleton.mpr rfl
  satisfied := rfl
  atStart hstart := by
    obtain rfl : atStart = true := hstart
    obtain ⟨huses, htracker⟩ := h rfl
    exact ⟨huses, htracker, rfl, t, rfl, ht⟩
  injecting hinj := ⟨by simpa using hinj, t, rfl, ht⟩

/-- While matches may begin, a thread that begins arrives last: no move leads to its state. -/
theorem head_arrived (tracker : BitSet) (hn : n.tree.WellFormed)
    (hout : Outgoing n ss (moves.map (·.transition))) (harise : ∀ s ∈ ss, n.Arises s)
    (h : stillInjecting moves injecting c = true) :
    ∃ rest, arrived n moves injecting tracker c =
      ⟨n.initial (n.contextOf false (n.lookBehinds.advance tracker c)), none⟩ :: rest := by
  unfold arrived
  simp only [h, if_true]
  rw [Arrival.join, if_neg]
  · exact ⟨_, rfl⟩
  · intro hany
    obtain ⟨a, ha, hstate⟩ := List.any_eq_true.mp hany
    have hmem := List.mem_map_of_mem (f := Arrival.state) ha
    rw [map_state_foldl_join, map_state_arrivals, map_transition_allowing] at hmem
    have htarget := (mem_foldl_joinState.mp hmem).resolve_left List.not_mem_nil
    exact ne_initial_of_targets hout harise hn htarget (by simpa using hstate)

/-- The threads that arrive on a character are coherent. -/
theorem CoherentIn.step (hn : n.tree.WellFormed)
    (h : CoherentIn p d ss context threads injecting tracker) (hmoves : MovesOf d 0 threads moves)
    {later : List Thread} {us : List SlotUpdate}
    (hs : Realized d (arrived n moves injecting tracker c) later us) (hne : later ≠ [])
    (hcount : later.length ≤ p.maxThreads) :
    CoherentIn p d (reached n (moves.map (·.transition)) injecting tracker c).reverse
      (n.contextOf false (n.lookBehinds.advance tracker c)) later.reverse
      (stillInjecting moves injecting c) (n.lookBehinds.advance tracker c) := by
  obtain ⟨ss', hss', hout⟩ := hmoves.outgoing
  obtain rfl := h.states.unique hss'
  have hstates := hs.hasStates
  rw [map_state_arrived] at hstates
  refine ⟨List.rel_reverse hstates, fun s hmem => ?_, by simpa using hne,
    List.nodup_reverse.mpr nodup_reached, .inl (by simpa using hcount), fun s hmem => ?_, rfl,
    fun hstart => absurd hstart Bool.false_ne_true, fun hinj => ?_⟩
  · exact arises_of_reached hout h.arise (List.mem_reverse.mp hmem)
  · exact context_of_mem_reached (List.mem_reverse.mp hmem)
  · obtain ⟨rest, harrived⟩ := head_arrived tracker hn hout h.arise hinj
    rw [harrived] at hs
    cases hs with
    | @cons _ t _ _ _ _ hfirst _ =>
      refine ⟨(h.injecting (Bool.and_eq_true_iff.mp hinj).1).1, t, by simp, hfirst.state, ?_⟩
      cases htraced : d.traced? with
      | none => exact (hfirst.tracked htraced).1
      | some groups => exact (hfirst.traced groups htraced).2

theorem keyInvariant_coherent (hn : n.tree.WellFormed) (p : Plan) :
    KeyInvariant p (Coherent (n := n) p) where
  mono := fun ⟨ss, context, h⟩ hd => ⟨ss, context, h.mono hd⟩
  root := fun ht h => ⟨_, _, coherentIn_root ht fun hstart =>
    ⟨(h hstart).1, congrArg n.lookBehinds.afterCodes (h hstart).2⟩⟩
  step := fun ⟨_, _, h⟩ hmoves _ hs hne hcount => ⟨_, _, h.step hn hmoves hs hne hcount⟩

/-- A thread observes the start of the input only if nothing has been read. -/
def ObservesStart (d : Discovered n) (w : List Nat) (t : Thread) : Prop :=
  ∀ s, d.states.state? t.state = some s → s.context.atStart = true → w = []

theorem pathInvariant_after (p : Plan) (d : Discovered n) :
    PathInvariant p d (Key.After n (ObservesStart d)) := by
  refine pathInvariant_of_threads (fun ht hw s hs hstart => ?_) fun _ _ hs t ht s hstate hstart => ?_
  · cases ht.state.symm.trans hs
    exact hw hstart
  · obtain ⟨a, ha, u, hreal⟩ := hs.mem_thread ht
    cases hreal.state.symm.trans hstate
    have hmem := List.mem_map_of_mem (f := Arrival.state) ha
    rw [map_state_arrived] at hmem
    rw [context_of_mem_reached hmem] at hstart
    exact absurd hstart Bool.false_ne_true

/-- Equal threads have equal numbers, and so the key of a root has one number. -/
theorem Root.eq_rootStart {i j : StateId} (h : Root p d true threads injecting n.lookBehinds.initial)
    (hi : d.keys.get? i = some (.search threads injecting n.lookBehinds.initial))
    (huses : n.usesStart = true) (hj : RootKey p d n.usesStart n.lookBehinds.initial j) : i = j := by
  obtain ⟨rfl, ⟨number, captures⟩, rfl, hstate, hcaptures⟩ := h
  obtain ⟨⟨number', captures'⟩, hkey, hstate', hcaptures'⟩ := hj
  rw [huses] at hstate'
  obtain rfl : number = number' := Interner.get?_inj hstate hstate'
  obtain rfl : captures = captures' := hcaptures.trans hcaptures'.symm
  exact Interner.get?_inj hi hkey

/-- Threads with different states have different numbers. -/
theorem CoherentIn.nodup_numbers (h : CoherentIn p d ss context threads injecting tracker) :
    (threads.map (·.state)).Nodup := by
  refine List.Nodup.of_map d.states.state? ?_
  have hmap : (threads.map (·.state)).map d.states.state? = ss.map some := by
    have hstates := h.states
    clear h
    induction hstates with
    | nil => rfl
    | cons ht _ ih => rw [List.map_cons, List.map_cons, ih, ht, List.map_cons]
  rw [hmap]
  exact h.distinct.map fun _ _ => Option.some.inj

end Coherent

section Interrupted

open Build

variable {pattern : String} {flags : Flags} {budget : Budget} {properties : PropertyLookup}
  {tree : Tree} {multiline : Bool} {maxStates : Nat} {n : Nfa}

/-- However far a construction has got, and whether it succeeds or fails, the threads of all keys are
coherent. Of the automaton that there is by then, every path from a root leads to a key with the
tracker that has read the text of the path, and only the root at the start of the input observes the
start. The whole construction is the one up to `p.maxStates + 1` states (`dfa_eq_upTo`). -/
theorem threads_coherent (ht : Pattern.parse pattern flags budget properties = .ok tree)
    (hn : Nfa.ofTree tree multiline maxStates = .ok n) (p : Plan) (states : Nfa.States n)
    (tracer : Option TraceFinder) (fuel : Nat) :
    let (result, d) := (upTo p fuel).run.run (Discovered.start states tracer)
    ∀ i threads injecting tracker, d.keys.get? i = some (.search threads injecting tracker) →
      ∃ ss context, CoherentIn p d ss context threads injecting tracker ∧
        (threads.map (·.state)).Nodup ∧
        ∀ a, result = .ok a →
          (context.atStart = true → i = a.rootStart) ∧
          ∀ w, a.Reads i w →
            tracker = n.lookBehinds.afterCodes w ∧ (context.atStart = true → w = []) := by
  obtain ⟨table, -, heq⟩ := bind_eq_ok.mp hn
  have htree : n.tree.WellFormed := by
    cases heq
    exact Pattern.wellFormed_parse ht
  have hsound := (keyInvariant_coherent htree p).sound_of_run states tracer fuel
  rcases hrun : (upTo p fuel).run.run (Discovered.start states tracer) with ⟨result, d⟩
  rw [hrun] at hsound
  intro i threads injecting tracker hi
  obtain ⟨ss, context, h⟩ := hsound.keys i threads injecting tracker hi
  refine ⟨ss, context, h, h.nodup_numbers, fun a ha => ?_⟩
  subst ha
  obtain ⟨hbegun, -⟩ := begun_of_gives hrun
  refine ⟨fun hstart => ?_, fun w hw => ?_⟩
  · obtain ⟨huses, rfl, hroot⟩ := h.atStart hstart
    exact hroot.eq_rootStart hi huses hbegun.rootStart
  · obtain ⟨k, hk, hafter⟩ := hbegun.of_reads (pathInvariant_after p d) hw
    rw [hi] at hk
    cases hk
    refine ⟨hafter.1, fun hstart => ?_⟩
    obtain ⟨t, ht⟩ := List.exists_mem_of_ne_nil _ h.nonempty
    obtain ⟨s, hs, hstate⟩ := exists_of_mem_right h.states.flip ht
    exact hafter.2 t ht s hstate (h.shared s hs ▸ hstart)

set_option maxRecDepth 100000 in
theorem threads_coherent_five_states : ∃ tree n a d threads tracker,
    Pattern.parse "^b|(?<=a)b|a" {} {} Property.standard = .ok tree ∧
      Nfa.ofTree tree false 3500 = .ok n ∧
      Gives (upTo (n := n) ⟨false, .dfa, 3000, 255⟩ 5) (Discovered.start .empty none) a d ∧
      d.keys.size = 7 ∧ d.keys.get? 4 = some (.search threads true tracker) ∧ threads.length = 2 ∧
      Coherent ⟨false, .dfa, 3000, 255⟩ d threads true tracker ∧ a.Reads 4 [97] ∧
      tracker = n.lookBehinds.afterCodes [97] := by
  obtain ⟨tree, htree⟩ := exists_ok
    (x := Pattern.parse "^b|(?<=a)b|a" {} {} Property.standard) (by decide +kernel)
  obtain ⟨n, hn⟩ := exists_ok (x := Nfa.ofTree tree false 3500)
    (of_toOption (P := fun tree => (Nfa.ofTree tree false 3500).isOk) (by decide +kernel) htree)
  have hcheck := of_toOption (P := fun tree => ∀ n ∈ (Nfa.ofTree tree false 3500).toOption,
    let run := (upTo (n := n) ⟨false, .dfa, 3000, 255⟩ 5).run.run (Discovered.start .empty none)
    run.1.isOk ∧ run.2.keys.size = 7 ∧
      (∃ k ∈ run.2.keys.get? 4, k = .search k.threads true ⟨3⟩ ∧ k.threads.length = 2) ∧
      ∀ a ∈ run.1.toOption, ((a.state a.rootStart).transition? 97).map (·.target) = some 4)
    (by decide +kernel) htree n (by rw [hn]; rfl)
  have hcoherent := threads_coherent htree hn ⟨false, .dfa, 3000, 255⟩ .empty none 5
  rcases hrun : (upTo (n := n) ⟨false, .dfa, 3000, 255⟩ 5).run.run (Discovered.start .empty none)
    with ⟨r, d⟩
  simp only [hrun] at hcheck hcoherent
  obtain ⟨hok, hsize, ⟨k, hk, hkey, hlength⟩, hnext⟩ := hcheck
  obtain ⟨a, rfl⟩ := exists_ok hok
  obtain ⟨t, htransition, htarget⟩ := Option.map_eq_some_iff.mp (hnext a rfl)
  have hreads : a.Reads 4 ([] ++ [97]) := htarget ▸ .next .rootStart (by decide) htransition
  rw [Option.mem_def, hkey] at hk
  obtain ⟨ss, context, hin, -, hpaths⟩ := hcoherent 4 k.threads true ⟨3⟩ hk
  exact ⟨tree, n, a, d, k.threads, ⟨3⟩, htree, hn, hrun, hsize, hk, hlength, ⟨ss, context, hin⟩, hreads,
    ((hpaths a rfl).2 _ hreads).1⟩

end Interrupted

end PatternAutomata.Dfa
