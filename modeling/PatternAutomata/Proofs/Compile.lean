import PatternAutomata.Compile
import PatternAutomata.Proofs.Dfa.Distances
import PatternAutomata.Proofs.Dfa.Splitting

/-!
# What a compiled automaton finds

Whether it was built with traces or without, and whether its loops were split or not, an automaton
gives what the runs of the nondeterministic one give, tried in the order of their starts.
-/

namespace PatternAutomata

variable {n : Nfa}

theorem clamp_distances (budget : Budget) :
    max 1 budget.clamp.maxDfaSize * max 1 budget.clamp.maxThreads <
      RelativeCaptures.maxDistance := by
  have h1 : max 1 budget.clamp.maxDfaSize ≤ 32767 :=
    Nat.max_le.mpr ⟨by decide, Nat.min_le_right ..⟩
  have h2 : max 1 budget.clamp.maxThreads ≤ 255 := Nat.max_le.mpr ⟨by decide, Nat.min_le_right ..⟩
  have h3 : 32767 * 255 < RelativeCaptures.maxDistance := by decide
  exact Nat.lt_of_le_of_lt (Nat.mul_le_mul h1 h2) h3

/-- An automaton comes from what was discovered, with traces or without. -/
theorem determinize_built {sticky : Bool} {budget : Budget} {a : Dfa}
    (h : determinize n sticky budget.clamp = .ok a) :
    ∃ (p : Dfa.Plan) (d : Dfa.Discovered n), Dfa.Build.Built p d a ∧
      p.sticky = sticky ∧ Dfa.ShortDistances d ∧
      ∀ groups, d.traced? = some groups → groups = n.groupCount := by
  have tracking : ∀ (states states' : Nfa.States n),
      Dfa.tracking states sticky budget.clamp = (.ok a, states') →
      ∃ (p : Dfa.Plan) (d : Dfa.Discovered n), Dfa.Build.Built p d a ∧
        p.sticky = sticky ∧ Dfa.ShortDistances d ∧
        ∀ groups, d.traced? = some groups → groups = n.groupCount := by
    intro states states' ha
    obtain ⟨d, hb, htraced⟩ := Dfa.Build.build_eq_ok ha
    have hnone : ∀ groups, d.traced? ≠ some groups := fun groups hg => by
      cases htraced.symm.trans hg
    exact ⟨_, d, hb, rfl, fun groups hg => absurd hg (hnone groups),
      fun groups hg => absurd hg (hnone groups)⟩
  unfold determinize at h
  split at h
  · rename_i b hb
    cases h
    unfold traced? at hb
    split at hb
    · split at hb
      · rename_i b' states' ha
        cases hb
        obtain ⟨d, hb, htraced⟩ := Dfa.Build.build_eq_ok ha
        refine ⟨_, d, hb, rfl, Dfa.shortDistances hb.valid (clamp_distances budget),
          fun groups hg => ?_⟩
        cases htraced.symm.trans hg
        rfl
      · obtain ⟨h1, -⟩ := Prod.mk.inj hb
        split at h1 <;> cases h1
    · cases hb
  · exact tracking _ _ (Prod.ext h rfl)
  · cases h

theorem Dfa.Build.Built.closed {p : Plan} {d : Discovered n} {a : Dfa} (h : Built p d a) :
    a.Closed where
  successors _ _ hj := h.successor_lt hj
  rootStart := h.root_lt.2.1
  rootMid := h.root_lt.2.2
  dead_lt := h.root_lt.1
  state_dead := h.expands _ _ h.valid.dead

theorem Nfa.tree_of_ofTree {t : Tree} {multiline : Bool} {maxStates : Nat}
    (h : Nfa.ofTree t multiline maxStates = .ok n) : n.tree = t := by
  obtain ⟨table, -, h⟩ := bind_eq_ok.mp h
  cases h
  rfl

theorem Nfa.laidOut_of_ofTree {t : Tree} {multiline : Bool} {maxStates : Nat}
    (h : Nfa.ofTree t multiline maxStates = .ok n) : n.lookBehinds.LaidOut := by
  obtain ⟨table, htable, h⟩ := bind_eq_ok.mp h
  cases h
  exact LookBehindTable.laidOut_of_ofTree htable

/-- Searches by the automaton find what the runs of `n` from the starts find, tried in their order. -/
def Dfa.Tries (a : Dfa) (n : Nfa) (sticky : Bool) : Prop :=
  ∀ input start, start ≤ input.length →
    FirstOf (n.StartFinds input) (starts sticky input.length start) (a.search input start)

/-- Automata whose runs find the same from each start find the same. -/
theorem Dfa.Tries.search_eq {a a' : Dfa} {n' : Nfa} {sticky : Bool} (h : a.Tries n sticky)
    (h' : a'.Tries n' sticky) {input input' : List Char} (hlength : input.length = input'.length)
    (hsame : ∀ position r, n.StartFinds input position r → n'.StartFinds input' position r)
    (start : Nat) : a.search input start = a'.search input' start := by
  by_cases hstart : start ≤ input.length
  · have hfinds' := h' input' start (hlength ▸ hstart)
    rw [← hlength] at hfinds'
    exact FirstOf.det (fun _ _ _ _ hr hr' => hr.det hr')
      ((h input start hstart).mono fun position _ r hr => hsame position r hr) hfinds'
  · rw [Dfa.search, Dfa.search, if_neg hstart, if_neg (hlength ▸ hstart)]

theorem automaton_finds {t : Tree} {flags : Flags} {budget : Budget} {a : Dfa}
    (h : automaton t flags budget.clamp = .ok a) :
    ∃ n, Nfa.ofTree t flags.multiline budget.clamp.maxNfaSize = .ok n ∧ a.Tries n flags.sticky := by
  obtain ⟨n, hn, h⟩ := bind_eq_ok.mp h
  obtain ⟨a', ha, h⟩ := bind_eq_ok.mp h
  cases h
  obtain ⟨p, d, hb, hp, hshort, hg⟩ := determinize_built ha
  refine ⟨n, hn, fun input start hstart => ?_⟩
  have hsearch : (splitIfPossible a' budget.clamp).search input start = a'.search input start := by
    unfold splitIfPossible
    split
    · cases hsplit : a'.splitLoops budget.clamp.maxSplitDfaSize with
      | error b => rfl
      | ok a'' => exact Dfa.search_splitLoops hb.closed hsplit input start
    · rfl
  rw [hsearch, ← hp]
  exact Dfa.search_finds hb (Nfa.laidOut_of_ofTree hn) hshort hg hstart

/-- Splitting loops aside, an automaton has the capture groups of the tree. -/
theorem groups_of_automaton {t : Tree} {flags : Flags} {budget : Budget} {a : Dfa}
    (h : automaton t flags budget.clamp = .ok a) : a.groups = t.groupCount := by
  obtain ⟨n, hn, h⟩ := bind_eq_ok.mp h
  obtain ⟨a', ha, h⟩ := bind_eq_ok.mp h
  cases h
  obtain ⟨p, d, hb, -⟩ := determinize_built ha
  have hgroups : a'.groups = t.groupCount := by
    rw [hb.groups, ← Nfa.tree_of_ofTree hn]
    rfl
  unfold splitIfPossible
  split
  · cases hsplit : a'.splitLoops budget.clamp.maxSplitDfaSize with
    | error b => exact hgroups
    | ok a'' =>
      obtain ⟨s, -, heq⟩ := bind_eq_ok.mp hsplit
      cases heq
      exact hgroups
  · exact hgroups

/-- A compiled pattern holds the automaton of its tree. -/
theorem compile_eq_ok_iff {pattern : String} {flags : Flags} {budget : Budget}
    {properties : PropertyLookup} {m : Matcher} :
    compile pattern flags budget properties = .ok m ↔
      ∃ t a, Pattern.parse pattern flags budget.clamp properties = .ok t ∧
        automaton t flags budget.clamp = .ok a ∧
          m = { pattern, flags, dfa := a, groupNames := t.groupNames } := by
  unfold compile
  rw [bind_eq_ok]
  refine exists_congr fun t => ?_
  cases automaton t flags budget.clamp with
  | error b =>
    constructor
    · rintro ⟨-, h⟩
      cases h
    · rintro ⟨a, -, h, -⟩
      cases h
  | ok a =>
    constructor
    · rintro ⟨ht, h⟩
      cases h
      exact ⟨a, ht, rfl, rfl⟩
    · rintro ⟨_, ht, h, rfl⟩
      cases h
      exact ⟨ht, rfl⟩

/-- The automaton of a compiled pattern tries the runs of the nondeterministic one. -/
theorem compile_finds {pattern : String} {flags : Flags} {budget : Budget}
    {properties : PropertyLookup} {m : Matcher}
    (hm : compile pattern flags budget properties = .ok m) :
    ∃ t n a, Pattern.parse pattern flags budget.clamp properties = .ok t ∧
      Nfa.ofTree t flags.multiline budget.clamp.maxNfaSize = .ok n ∧ a.Tries n flags.sticky ∧
        m = { pattern, flags, dfa := a, groupNames := t.groupNames } := by
  obtain ⟨t, a, ht, ha, rfl⟩ := compile_eq_ok_iff.mp hm
  obtain ⟨n, hn, hfinds⟩ := automaton_finds ha
  exact ⟨t, n, a, ht, hn, hfinds, rfl⟩

end PatternAutomata
