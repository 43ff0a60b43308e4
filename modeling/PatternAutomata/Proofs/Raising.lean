import PatternAutomata.Proofs.Nfa.Raising
import PatternAutomata.Proofs.Pattern.Kinds
import PatternAutomata.Proofs.Tracing

/-!
# Raising budgets

A larger budget compiles what a smaller one does, and what is compiled finds the same. That a
refinement succeeds under the larger budget only does not matter: tracing and splitting do not
change what is found, and whether a pattern compiles is settled by the construction with slots.
-/

namespace PatternAutomata

variable {budget budget' : Budget} {n : Nfa}

theorem Nfa.ofTree_withMaxStates {t : Tree} {multiline : Bool} {k : Nat} (k' : Nat)
    (h : Nfa.ofTree t multiline k = .ok n) :
    n.maxStates = k ∧ Nfa.ofTree t multiline k' = .ok (n.withMaxStates k') := by
  obtain ⟨table, htable, h⟩ := bind_eq_ok.mp h
  cases h
  exact ⟨rfl, bind_eq_ok.mpr ⟨table, htable, rfl⟩⟩

/-- The construction with slots succeeds under larger limits, on the automaton and on that which it
is built from. -/
theorem Dfa.exists_tracking_of_atMost {sticky : Bool} (hb : budget.AtMost budget') {k : Nat}
    (hk : n.maxStates ≤ k)
    (h : ∃ a, (Dfa.tracking (.empty : Nfa.States n) sticky budget).1 = .ok a) :
    ∃ a, (Dfa.tracking (.empty : Nfa.States (n.withMaxStates k)) sticky budget').1 = .ok a := by
  obtain ⟨a, ha⟩ := h
  obtain ⟨d, hbuilt, -⟩ := Build.build_eq_ok (Prod.ext ha rfl)
  have hroom : View.Room n d.Viewed ⟨sticky, .dfa, budget.maxDfaSize, budget.maxThreads⟩ false :=
    hbuilt.room rfl rfl rfl nofun
  replace hroom : View.Room (n.withMaxStates k) d.Viewed
      ⟨sticky, .dfa, budget'.maxDfaSize, budget'.maxThreads⟩ false :=
    hroom.withMaxStates hk rfl hb.maxDfaSize hb.maxThreads
  exact Build.exists_build hroom fun i s hs => absurd hs not_state?_empty

/-- What is found under one budget is found under a larger one. -/
theorem execute_eq_of_atMost {pattern : String} {flags : Flags} {properties : PropertyLookup}
    (hb : budget.AtMost budget') {m m' : Matcher}
    (hm : compile pattern flags budget properties = .ok m)
    (hm' : compile pattern flags budget' properties = .ok m') : m.execute = m'.execute := by
  obtain ⟨t, n, a, ht, hn, hfinds, rfl⟩ := compile_finds hm
  obtain ⟨t', n', a', ht', hn', hfinds', rfl⟩ := compile_finds hm'
  obtain rfl : t = t' := Except.ok.inj ((Pattern.parse_of_atMost hb.clamp ht).symm.trans ht')
  obtain ⟨hk, hraised⟩ := Nfa.ofTree_withMaxStates budget'.clamp.maxNfaSize hn
  obtain rfl := Except.ok.inj (hraised.symm.trans hn')
  funext input start
  refine congrArg (Option.map _) (hfinds.search_eq hfinds' rfl (fun position r h => ?_) start)
  exact h.withMaxStates (hk ▸ hb.clamp.maxNfaSize)

/-- Whatever compiles under a budget compiles under a larger one, into a matcher that finds the
same. -/
theorem compile_of_atMost {pattern : String} {flags : Flags} {properties : PropertyLookup}
    {m : Matcher} (hb : budget.AtMost budget')
    (hm : compile pattern flags budget properties = .ok m) :
    ∃ m', compile pattern flags budget' properties = .ok m' ∧
      ∀ input start, m'.execute input start = m.execute input start := by
  obtain ⟨t, n, ht, hn, htracking⟩ := exists_compile_iff.mp ⟨m, hm⟩
  obtain ⟨hk, hraised⟩ := Nfa.ofTree_withMaxStates budget'.clamp.maxNfaSize hn
  obtain ⟨m', hm'⟩ := exists_compile_iff.mpr ⟨t, _, Pattern.parse_of_atMost hb.clamp ht, hraised,
    Dfa.exists_tracking_of_atMost hb.clamp (hk ▸ hb.clamp.maxNfaSize) htracking⟩
  exact ⟨m', hm', fun input start => by rw [execute_eq_of_atMost hb hm hm']⟩

set_option maxRecDepth 100000 in
/-- There is room for one result, and tracing gives up. With room for a second one it succeeds, and
finds the same. -/
theorem compile_of_atMost_traceResults :
    let budget : Budget := { maxTraceResults := 1 }
    let budget' : Budget := { maxTraceResults := 2 }
    ∃ m m', budget.AtMost budget' ∧
      compile "(a)|(b)" {} budget Property.standard = .ok m ∧
      compile "(a)|(b)" {} budget' Property.standard = .ok m' ∧
      m.dfa.results.isNone ∧ m'.dfa.results.isSome ∧
      (∀ input start, m'.execute input start = m.execute input start) ∧
      (m'.execute "b".toList 0).map Match.captures =
        some #[some 0, some 1, none, none, some 0, some 1] := by
  intro budget budget'
  have hb : budget.AtMost budget' := by constructor <;> decide
  obtain ⟨m, hm⟩ := exists_ok (x := compile "(a)|(b)" {} budget Property.standard)
    (by decide +kernel)
  obtain ⟨m', hm', hexecute⟩ := compile_of_atMost hb hm
  have hnone := of_toOption (P := fun m => m.dfa.results.isNone) (by decide +kernel) hm
  have hsome := of_toOption (P := fun m => m.dfa.results.isSome) (by decide +kernel) hm'
  have hmatch := of_toOption (P := fun m => (m.execute "b".toList 0).map Match.captures =
    some #[some 0, some 1, none, none, some 0, some 1]) (by decide +kernel) hm'
  exact ⟨m, m', hb, hm, hm', hnone, hsome, hexecute, hmatch⟩

end PatternAutomata
