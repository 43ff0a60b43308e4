import PatternAutomata.Pattern.Reader
import PatternAutomata.Proofs.Compile

/-!
# Walking through an automaton and its split form

Reading the same characters, an automaton and what splitting its loops makes of it pass states that
do the same, and they are dead at the same time. So a search finds the same in both.
-/

namespace PatternAutomata.Dfa

/-- The states do the same, except for the numbers of the states that they lead to. -/
structure State.Alike (s s' : State) : Prop where
  entry : s'.entry.isSome = s.entry.isSome
  slots : s'.slots = s.slots
  endAccept : s'.endAccept = s.endAccept
  transition : ∀ c, (s'.transition? c).map (fun t => (t.updates, t.accept)) =
    (s.transition? c).map fun t => (t.updates, t.accept)

/-- States at which one walk arrives in both automata. It begins in a root, reads characters, and
may go on in the entry of a state that reads ahead. -/
inductive Alongside (d d' : Dfa) : StateId → StateId → Prop
  | rootStart : Alongside d d' d.rootStart d'.rootStart
  | rootMid : Alongside d d' d.rootMid d'.rootMid
  | step {i i' : StateId} {c : Nat} {t t' : Transition} (h : Alongside d d' i i')
    (ht : (d.state i).transition? c = some t) (ht' : (d'.state i').transition? c = some t') :
    Alongside d d' t.target t'.target
  | entry {i i' e e' : StateId} (h : Alongside d d' i i') (he : (d.state i).entry = some e)
    (he' : (d'.state i').entry = some e') : Alongside d d' e e'

theorem State.alike_mapSuccessors (s : State) (f : StateId → StateId) :
    State.Alike (s.mapSuccessors f) s where
  entry := by simp [mapSuccessors]
  slots := rfl
  endAccept := rfl
  transition c := by
    rw [transition?_mapSuccessors, Option.map_map]
    rfl

section Covers

variable {d : Dfa} {s : Splitting} {f : StateId → StateId}

/-- A walk arrives at a copy of the state at which it arrives in the automaton itself. -/
theorem Covers.of_alongside (h : Covers d s f) {i i' : StateId}
    (hi : Alongside d (d.withStates s) i i') : f i' = i ∧ i' < s.size := by
  induction hi with
  | rootStart => exact ⟨h.rootStart, h.rootStart_lt⟩
  | rootMid => exact ⟨h.rootMid, h.rootMid_lt⟩
  | @step i i' c t t' _ ht ht' ih =>
    obtain ⟨rfl, -⟩ := ih
    rw [h.state, State.transition?_mapSuccessors, ht'] at ht
    cases ht
    exact ⟨rfl, h.closed i' _ (State.mem_successors_of_transition? ht')⟩
  | @entry i i' e e' _ he he' ih =>
    obtain ⟨rfl, -⟩ := ih
    rw [h.state, State.mapSuccessors] at he
    simp only [he', Option.map_some] at he
    cases he
    exact ⟨rfl, h.closed i' _ (State.mem_successors_of_entry he')⟩

theorem Covers.alike (h : Covers d s f) {i i' : StateId}
    (hi : Alongside d (d.withStates s) i i') :
    (d.state i).Alike ((d.withStates s).state i') ∧ (i = Dfa.dead ↔ i' = Dfa.dead) := by
  obtain ⟨rfl, hlt⟩ := h.of_alongside hi
  rw [h.state]
  refine ⟨State.alike_mapSuccessors .., h.dead_of i' hlt, ?_⟩
  rintro rfl
  exact h.dead

end Covers

/-- Splitting the loops of an automaton that was built changes no search. In both automata a walk
passes states that do the same, of which none or both are dead. -/
theorem splitLoops_alike {n : Nfa} {states : Nfa.States n} {p : Plan} {tracer : Option TraceFinder}
    {d d' : Dfa} {maxStates : Nat} (hd : (build states p tracer).1 = .ok d)
    (hd' : d.splitLoops maxStates = .ok d') :
    (∀ input start, d'.search input start = d.search input start) ∧
      (∀ i i', Alongside d d' i i' →
        (d.state i).Alike (d'.state i') ∧ (i = dead ↔ i' = dead)) ∧
      dead < d'.size ∧ d'.state dead = {} := by
  obtain ⟨_, hbuilt, -⟩ := Build.build_eq_ok (Prod.ext hd rfl)
  obtain ⟨s, f, h, rfl⟩ := exists_covers hbuilt.closed hd'
  exact ⟨h.search, fun _ _ => h.alike, h.dead_lt, h.state_eq_of_dead h.dead⟩

set_option maxRecDepth 100000 in
theorem splitLoops_alike_starred_alternatives : ∃ (n : Nfa) (d d' : Dfa),
    (build (.empty : Nfa.States n) ⟨false, .dfa, 3000, 255⟩ none).1 = .ok d ∧
      d.splitLoops 100 = .ok d' ∧ d.size < d'.size ∧
      (d.state d.rootStart).Alike (d'.state d'.rootStart) ∧
      d'.search "bac".toList 0 = d.search "bac".toList 0 := by
  obtain ⟨tree, htree⟩ := exists_ok
    (x := Pattern.parse "^(?:a|b)*c" {} {} Property.standard) (by decide +kernel)
  obtain ⟨n, hn⟩ := exists_ok (x := Nfa.ofTree tree false 3500)
    (of_toOption (P := fun tree => (Nfa.ofTree tree false 3500).isOk) (by decide +kernel) htree)
  have hcheck := of_toOption (P := fun tree => ∀ n ∈ (Nfa.ofTree tree false 3500).toOption,
    (build (.empty : Nfa.States n) ⟨false, .dfa, 3000, 255⟩ none).1.isOk ∧
      ∀ d ∈ (build (.empty : Nfa.States n) ⟨false, .dfa, 3000, 255⟩ none).1.toOption,
        (d.splitLoops 100).isOk ∧ ∀ d' ∈ (d.splitLoops 100).toOption, d.size < d'.size)
    (by decide +kernel) htree n (by rw [hn]; rfl)
  obtain ⟨d, hd⟩ := exists_ok hcheck.1
  obtain ⟨hok, hlt⟩ := of_toOption hcheck.2 hd
  obtain ⟨d', hd'⟩ := exists_ok hok
  obtain ⟨hsearch, halike, -⟩ := splitLoops_alike hd hd'
  exact ⟨n, d, d', hd, hd', of_toOption hlt hd', (halike _ _ .rootStart).1, hsearch ..⟩

end PatternAutomata.Dfa
