import PatternAutomata.Proofs.Compile
import PatternAutomata.Proofs.Dfa.Staying
import PatternAutomata.Proofs.Dfa.Twins

/-!
# Tracing is transparent

Tracing captures is a refinement. Whether a pattern compiles does not depend on it, nor what the
compiled pattern finds. When tracing gives up, the states of the nondeterministic automaton that it
has discovered stay, and the automaton with slots that is built then is the one that would have been
built without them.
-/

namespace PatternAutomata

variable {n : Nfa} {sticky : Bool} {budget : Budget}

namespace Dfa

/-- If some automaton was built under the limits, then an automaton with slots can be built from any
states that occur in it. -/
theorem exists_tracking {p : Plan} {d : Discovered n} {a : Dfa} (h : Build.Built p d a)
    (hsticky : p.sticky = sticky) (hstates : p.maxStates = budget.maxDfaSize)
    (hthreads : p.maxThreads = budget.maxThreads) {states : Nfa.States n}
    (hs : ∀ i s, states.state? i = some s → View.Holds d.Viewed s) :
    ∃ a, (tracking states sticky budget).1 = .ok a :=
  Build.exists_build (h.room hsticky.symm hstates.symm hthreads.symm nofun) hs

theorem not_state?_empty {i : Nat} {s : Nfa.State} :
    (.empty : Nfa.States n).state? i ≠ some s := by
  intro h
  cases h

/-- Where tracing succeeds, so does the construction with slots. -/
theorem exists_tracking_of_tracing {a : Dfa} {states : Nfa.States n}
    (h : tracing .empty sticky budget = (.ok a, states)) :
    ∃ a, (tracking (.empty : Nfa.States n) sticky budget).1 = .ok a := by
  obtain ⟨d, hb, -⟩ := Build.build_eq_ok h
  exact exists_tracking hb rfl rfl rfl fun i s hs => absurd hs not_state?_empty

/-- Where the construction with slots succeeds, tracing stays within its views, and fails only for
limits of its own. -/
theorem tracing_stays {d : Discovered n} {p : Plan} {a : Dfa} (h : Build.Built p d a)
    (hsticky : p.sticky = sticky) (hstates : p.maxStates = budget.maxDfaSize)
    (hthreads : p.maxThreads = budget.maxThreads) :
    (∀ i s, (tracing (.empty : Nfa.States n) sticky budget).2.state? i = some s →
        View.Holds d.Viewed s) ∧
      ∀ e, (tracing (.empty : Nfa.States n) sticky budget).1 = .error e → e.stage = .traceFinder := by
  obtain ⟨hviews, herror⟩ := Build.build_stays
    (p := ⟨sticky, .traceFinder, budget.maxDfaSize, budget.maxThreads⟩)
    (some (TraceFinder.new n.groupCount budget.maxTraceResults))
    (h.room hsticky.symm hstates.symm hthreads.symm fun _ => rfl)
    (fun i s hs => absurd hs not_state?_empty)
  exact ⟨hviews, fun e he => (herror e he).2⟩

/-- After tracing, whether or not it gave up, the construction with slots makes what it makes from
the beginning. -/
theorem tracking_after_tracing (n : Nfa) (sticky : Bool) (budget : Budget) :
    (tracking (tracing (.empty : Nfa.States n) sticky budget).2 sticky budget).1.toOption =
      (tracking (.empty : Nfa.States n) sticky budget).1.toOption := by
  refine Option.ext fun a => ?_
  rw [toOption_eq_some_iff, toOption_eq_some_iff]
  constructor
  · intro ha
    obtain ⟨d, hb, -⟩ := Build.build_eq_ok (Prod.ext ha rfl)
    obtain ⟨b, hfresh⟩ := exists_tracking hb rfl rfl rfl fun i s hs => absurd hs not_state?_empty
    rw [Build.build_unique ha hfresh]
    exact hfresh
  · intro ha
    obtain ⟨d, hb, -⟩ := Build.build_eq_ok (Prod.ext ha rfl)
    obtain ⟨b, hlater⟩ := exists_tracking hb rfl rfl rfl (tracing_stays hb rfl rfl rfl).1
    rw [Build.build_unique ha hlater]
    exact hlater

end Dfa

theorem determinize_eq : determinize n sticky budget =
    if budget.traceCaptures && n.tree.isLoopFree then
      match Dfa.tracing (.empty : Nfa.States n) sticky budget with
      | (.ok a, _) => .ok a
      | (.error e, states) =>
        if e.stage = .traceFinder then (Dfa.tracking states sticky budget).1 else .error e
    else (Dfa.tracking (.empty : Nfa.States n) sticky budget).1 := by
  unfold determinize traced?
  by_cases hwanted : (budget.traceCaptures && n.tree.isLoopFree) = true
  · rw [if_pos hwanted, if_pos hwanted]
    rcases Dfa.tracing (.empty : Nfa.States n) sticky budget with ⟨e | a, states⟩
    · by_cases hstage : e.stage = .traceFinder
      · simp only [if_pos hstage]
      · simp only [if_neg hstage]
    · rfl
  · rw [if_neg hwanted, if_neg hwanted]

/-- Whether there is an automaton does not depend on tracing. -/
theorem exists_determinize_iff : (∃ a, determinize n sticky budget = .ok a) ↔
    ∃ a, (Dfa.tracking (.empty : Nfa.States n) sticky budget).1 = .ok a := by
  rw [determinize_eq]
  split
  · rcases htracing : Dfa.tracing (.empty : Nfa.States n) sticky budget with ⟨e | a, states⟩
    · have hlater := Dfa.tracking_after_tracing n sticky budget
      rw [htracing] at hlater
      simp only
      split
      · simp only [← toOption_eq_some_iff, hlater]
      · rename_i hstage
        refine ⟨nofun, fun ⟨a, ha⟩ => ?_⟩
        obtain ⟨d, hb, -⟩ := Dfa.Build.build_eq_ok (Prod.ext ha rfl)
        exact absurd ((Dfa.tracing_stays hb rfl rfl rfl).2 e (by rw [htracing])) hstage
    · exact ⟨fun _ => Dfa.exists_tracking_of_tracing htracing, fun _ => ⟨a, rfl⟩⟩
  · exact Iff.rfl

/-- A pattern compiles exactly if the automaton with slots can be built. -/
theorem exists_compile_iff {pattern : String} {flags : Flags} {properties : PropertyLookup} :
    (∃ m, compile pattern flags budget properties = .ok m) ↔
      ∃ t n, Pattern.parse pattern flags budget.clamp properties = .ok t ∧
        Nfa.ofTree t flags.multiline budget.clamp.maxNfaSize = .ok n ∧
          ∃ a, (Dfa.tracking (.empty : Nfa.States n) flags.sticky budget.clamp).1 = .ok a := by
  constructor
  · rintro ⟨m, hm⟩
    obtain ⟨t, a, ht, ha, -⟩ := compile_eq_ok_iff.mp hm
    obtain ⟨n, hn, ha⟩ := bind_eq_ok.mp ha
    obtain ⟨a, ha, -⟩ := bind_eq_ok.mp ha
    exact ⟨t, n, ht, hn, exists_determinize_iff.mp ⟨a, ha⟩⟩
  · rintro ⟨t, n, ht, hn, htracking⟩
    obtain ⟨a, ha⟩ := exists_determinize_iff.mpr htracking
    exact ⟨_, compile_eq_ok_iff.mpr
      ⟨t, _, ht, bind_eq_ok.mpr ⟨n, hn, bind_eq_ok.mpr ⟨a, ha, rfl⟩⟩, rfl⟩⟩

/-- What a compiled pattern finds does not depend on the budget for tracing. -/
theorem execute_eq_of_traceCaptures {pattern : String} {flags : Flags}
    {properties : PropertyLookup} {m m' : Matcher}
    (hm : compile pattern flags { budget with traceCaptures := true } properties = .ok m)
    (hm' : compile pattern flags { budget with traceCaptures := false } properties = .ok m') :
    m.execute = m'.execute := by
  obtain ⟨t, n, a, ht, hn, hfinds, rfl⟩ := compile_finds hm
  obtain ⟨t', n', a', ht', hn', hfinds', rfl⟩ := compile_finds hm'
  obtain rfl : t = t' := Except.ok.inj (ht.symm.trans ht')
  obtain rfl : n = n' := Except.ok.inj (hn.symm.trans hn')
  funext input start
  exact congrArg (Option.map _) (hfinds.search_eq hfinds' rfl (fun _ _ => id) start)

/-- Tracing changes neither whether a pattern compiles nor what is found. The automaton that is
built after tracing has given up is the one that is built without tracing. -/
theorem compile_traceCaptures (pattern : String) (flags : Flags) (budget : Budget)
    (properties : PropertyLookup) :
    (compile pattern flags { budget with traceCaptures := true } properties).toOption.map
        Matcher.execute =
      (compile pattern flags { budget with traceCaptures := false } properties).toOption.map
        Matcher.execute ∧
    ∀ (n : Nfa) (e : Bailout) (states : Nfa.States n),
      Dfa.tracing .empty flags.sticky budget.clamp = (.error e, states) → e.stage = .traceFinder →
        (Dfa.tracking states flags.sticky budget.clamp).1.toOption =
          (Dfa.tracking (.empty : Nfa.States n) flags.sticky budget.clamp).1.toOption := by
  refine ⟨?_, fun n e states h _ => ?_⟩
  · refine toOption_map_eq ?_ fun m m' hm hm' => execute_eq_of_traceCaptures hm hm'
    rw [exists_compile_iff, exists_compile_iff]
    -- Neither reading the pattern nor the construction with slots depends on that part of the budget.
    exact Iff.rfl
  · rw [← Dfa.tracking_after_tracing, h]

set_option maxRecDepth 100000 in
/-- There are two results, one more than may be traced, so tracing gives up midway. -/
theorem compile_traceCaptures_fewResults :
    let budget : Budget := { maxTraceResults := 1 }
    ∃ m m', compile "(a)|(b)" {} { budget with traceCaptures := true } Property.standard = .ok m ∧
      compile "(a)|(b)" {} { budget with traceCaptures := false } Property.standard = .ok m' ∧
      m.execute = m'.execute ∧
      (m.execute "b".toList 0).map Match.captures =
        some #[some 0, some 1, none, none, some 0, some 1] ∧
      ∃ (n : Nfa) (e : Bailout) (states : Nfa.States n) (a : Dfa),
        Dfa.tracing .empty false budget.clamp = (.error e, states) ∧ e.stage = .traceFinder ∧
          0 < states.size ∧ (Dfa.tracking states false budget.clamp).1 = .ok a ∧
          (Dfa.tracking (.empty : Nfa.States n) false budget.clamp).1 = .ok a := by
  intro budget
  obtain ⟨m, hm⟩ := exists_ok
    (x := compile "(a)|(b)" {} { budget with traceCaptures := true } Property.standard)
    (by decide +kernel)
  obtain ⟨m', hm'⟩ := exists_ok
    (x := compile "(a)|(b)" {} { budget with traceCaptures := false } Property.standard)
    (by decide +kernel)
  have hmatch := of_toOption (P := fun m => (m.execute "b".toList 0).map Match.captures =
    some #[some 0, some 1, none, none, some 0, some 1]) (by decide +kernel) hm
  obtain ⟨t, ht⟩ := exists_ok
    (x := Pattern.parse "(a)|(b)" {} budget.clamp Property.standard) (by decide +kernel)
  obtain ⟨n, hn⟩ := exists_ok (x := Nfa.ofTree t false budget.clamp.maxNfaSize)
    (of_toOption (P := fun t => (Nfa.ofTree t false budget.clamp.maxNfaSize).isOk)
      (by decide +kernel) ht)
  have hcheck := of_toOption (P := fun t =>
    ∀ n ∈ (Nfa.ofTree t false budget.clamp.maxNfaSize).toOption,
      (match Dfa.tracing (.empty : Nfa.States n) false budget.clamp with
        | (.error e, states) => e.stage == .traceFinder && 0 < states.size
        | (.ok _, _) => false) = true ∧
      (Dfa.tracking (.empty : Nfa.States n) false budget.clamp).1.isOk)
    (by decide +kernel) ht n (by rw [hn]; rfl)
  obtain ⟨a, ha⟩ := exists_ok hcheck.2
  obtain ⟨hexecute, htracking⟩ := compile_traceCaptures "(a)|(b)" {} budget Property.standard
  rw [hm, hm'] at hexecute
  have hgives := hcheck.1
  rcases htracing : Dfa.tracing (.empty : Nfa.States n) false budget.clamp with ⟨e | _, states⟩
  · rw [htracing] at hgives
    simp only [Bool.and_eq_true, beq_iff_eq, decide_eq_true_eq] at hgives
    refine ⟨m, m', hm, hm', Option.some_inj.mp hexecute, hmatch, n, e, states, a, htracing,
      hgives.1, hgives.2, ?_, ha⟩
    have hlater := htracking n e states htracing hgives.1
    rw [show Flags.sticky {} = false from rfl, ha] at hlater
    exact toOption_eq_some_iff.mp hlater
  · rw [htracing] at hgives
    cases hgives

end PatternAutomata
