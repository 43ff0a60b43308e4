import PatternAutomata.Proofs.Compile
import PatternAutomata.Proofs.Nfa.Simulation
import PatternAutomata.Proofs.Pattern.Reader

/-!
# Compiled patterns match as a backtracking matcher does

Executing a compiled pattern finds a match where a backtracking matcher does, and the one it finds
is the preferred one. The captures are the same outside of look-aheads. Inside of them, what was
written at the last position stands, where a backtracking matcher keeps what was written last.
-/

namespace PatternAutomata

/-! ## One start -/

/-- What the automaton finds from one start on: nothing if there is no match, and otherwise captures
in which every entry is left as the journal of the preferred match says. -/
def StartOutcome (t : Tree) (x : Subject) (start : Nat) : Option Captures → Prop
  | none => t.journalAt x start = none
  | some captures => ∃ j, t.journalAt x start = some j ∧ captures.size = 2 * t.groupCount ∧
    ∀ i < 2 * t.groupCount, ∃ v, captures[i]? = some v ∧ Leaves j.own (· ∈ j.inner) i none v

theorem Nfa.mainJournal?_initial {n : Nfa} (hn : n.tree.WellFormed) (x : Subject) (start : Nat)
    (context : Context) :
    (n.initial context).mainJournal? n x start = n.tree.journalAt x start := by
  obtain ⟨g, hg⟩ := hn.root_group
  have hroot : n.tree.goOn x Journal.recorder ({} : Trail).entered start n.tree.root =
      fun s => [s] := funext fun s => Tree.goOn_root hn
  unfold State.mainJournal? initial
  simp only [hg]
  unfold Task.journal? Task.ways Tree.journalAt
  rw [Trail.reach_empty, List.flatMap_singleton]
  simp only [hroot, List.flatMap_singleton']

theorem Nfa.startOutcome {n : Nfa} {x : Subject} (hn : n.tree.WellFormed)
    (hx : ∀ p ≤ x.text.length, n.Observes x p (n.contextAfter (x.text.take p))) {start : Nat}
    (hstart : start ≤ x.text.length) {r : Option Captures} (h : n.StartFinds x.text start r) :
    StartOutcome n.tree x start r := by
  obtain ⟨r', hfinds, rfl⟩ := h
  have hfits : (n.initial (n.contextAfter (x.text.take start))).Fits n.tree :=
    ⟨.inr .root, fun id hid => absurd hid List.not_mem_nil⟩
  rcases finds_outcome hn hx rfl hstart hfits rfl hfinds with ⟨rfl, hnot⟩ |
    ⟨-, bs, j, rfl, hj, hleaves⟩
  · rw [mainJournal?_initial hn] at hnot
    exact Classical.byContradiction fun hsome =>
      hnot ⟨fun id hid => absurd hid List.not_mem_nil, hsome⟩
  · rw [mainJournal?_initial hn] at hj
    refine ⟨j, hj, by rw [size_replay, Captures.unset, Array.size_replicate]; rfl, fun i hi => ?_⟩
    refine ⟨replayEntry bs start i none, ?_, ?_⟩
    · rw [getElem?_replay, Captures.unset, Array.getElem?_replicate,
        if_pos (show i < 2 * n.groupCount from hi)]
      rfl
    · have hinner : (fun ws => ws ∈ j.inner ∨ n.WrittenBy x start [] ws) = (· ∈ j.inner) := by
        funext ws
        simp [WrittenBy]
      exact hinner ▸ hleaves i none

/-- What a match outside of look-aheads writes is all that its entries are left with. -/
theorem StartOutcome.matchAt (ht : t.WellFormed) {x : Subject} {start : Nat} {r : Option Captures}
    (h : StartOutcome t x start r) : Option.Rel (fun found expected => found.size = expected.size ∧
      ∀ i, t.insideLookAhead (i / 2) = false → found[i]? = expected[i]?) r (t.matchAt x start) := by
  rw [Tree.matchAt_eq ht]
  cases r with
  | none =>
    rw [show t.journalAt x start = none from h]
    exact .none
  | some captures =>
    obtain ⟨j, hj, hsize, hentry⟩ := h
    rw [hj]
    refine .some ⟨by simp [hsize, Journal.captures], fun i hi => ?_⟩
    have hinner := Tree.lastWrite_inner_of_journalAt ht hj hi
    have hlog : lastWrite i j.log = lastWrite i j.own :=
      (Tree.of_journalAt ht (Tree.keeps_lastWrite ht i) trivial (by simp) hj).2 hinner
    by_cases hlt : i < 2 * t.groupCount
    · obtain ⟨v, hv, hleaves⟩ := hentry i hlt
      simp [hv, hleaves.eq_own hinner, hlog, Journal.captures, hlt]
    · have hle := Nat.le_of_not_lt hlt
      rw [Array.getElem?_eq_none_iff.mpr (hsize ▸ hle), Array.getElem?_eq_none_iff.mpr]
      simpa [Journal.captures] using hle

/-! ## Executing -/

section Execute

variable {pattern : String} {flags : Flags} {budget : Budget} {properties : PropertyLookup}
  {m : Matcher} {t : Tree}

/-- Executing a compiled pattern tries the starts in their order. -/
theorem execute_outcome (hm : compile pattern flags budget properties = .ok m)
    (ht : Pattern.parse pattern flags budget.clamp properties = .ok t) {input : List Char}
    {start : Nat} (hstart : start ≤ input.length) :
    FirstOf (StartOutcome t ⟨flags.multiline, input⟩) (starts flags.sticky input.length start)
      ((m.execute input start).map Match.captures) := by
  obtain ⟨t', n, a, ht', hn, hfinds, rfl⟩ := compile_finds hm
  obtain rfl : t = t' := Except.ok.inj (ht.symm.trans ht')
  have hwell := Pattern.wellFormed_parse ht
  have htree := Nfa.tree_of_ofTree hn
  have hx : ∀ p ≤ input.length, n.Observes ⟨flags.multiline, input⟩ p
      (n.contextAfter (input.take p)) := fun p hp => Nfa.observes hwell hn rfl hp
  have hcaptures : (Matcher.execute ⟨pattern, flags, a, t.groupNames⟩ input start).map
      Match.captures = a.search input start := by
    rw [Matcher.execute, Option.map_map]
    exact Option.map_id'
  rw [hcaptures]
  refine (hfinds input start hstart).mono fun s hs r hr => ?_
  have hs := ((mem_starts hstart).mp hs).2.1
  subst htree
  exact Nfa.startOutcome hwell hx hs hr

/-- What is found is what the automaton finds from one of the starts. -/
theorem exists_startOutcome (hm : compile pattern flags budget properties = .ok m)
    (ht : Pattern.parse pattern flags budget.clamp properties = .ok t) {input : List Char}
    {start : Nat} (hstart : start ≤ input.length) {found : Match}
    (hfound : m.execute input start = some found) :
    ∃ s, start ≤ s ∧ s ≤ input.length ∧ (flags.sticky = true → s = start) ∧
      StartOutcome t ⟨flags.multiline, input⟩ s (some found.captures) := by
  have hfirst := execute_outcome hm ht hstart
  rw [hfound] at hfirst
  obtain ⟨earlier, s, later, heq, -, houtcome⟩ := FirstOf.some_iff.mp hfirst
  have hs : s ∈ starts flags.sticky input.length start := by simp [heq]
  obtain ⟨h1, h2, h3⟩ := (mem_starts hstart).mp hs
  exact ⟨s, h1, h2, h3, houtcome⟩

/-- Without look-aheads a compiled pattern finds exactly what the backtracking matcher finds. -/
theorem execute_eq_firstMatch (hm : compile pattern flags budget properties = .ok m)
    (ht : Pattern.parse pattern flags budget.clamp properties = .ok t)
    (hlook : ∀ id ∈ t.reachable, t.isLookAhead id = false) {input : List Char} {start : Nat}
    (hstart : start ≤ input.length) :
    (m.execute input start).map Match.captures =
      t.firstMatch flags.sticky ⟨flags.multiline, input⟩ start := by
  have hrel := FirstOf.rel_findSome? ((execute_outcome hm ht hstart).mono fun s _ r hr =>
    hr.matchAt (Pattern.wellFormed_parse ht))
  unfold Tree.firstMatch
  generalize (starts _ _ _).findSome? _ = expected at hrel ⊢
  generalize (m.execute input start).map Match.captures = found at hrel ⊢
  cases hrel with
  | none => rfl
  | some h =>
    exact congrArg some (Array.ext_getElem? fun i => h.2 i (Tree.insideLookAhead_eq_false hlook _))

set_option maxRecDepth 100000 in
theorem execute_eq_firstMatch_starred_alternatives : ∃ m t,
    compile "(?:(a)|(b))*" {} {} Property.standard = .ok m ∧
      Pattern.parse "(?:(a)|(b))*" {} (Budget.clamp {}) Property.standard = .ok t ∧
      (∀ id ∈ t.reachable, t.isLookAhead id = false) ∧
      (m.execute "cab".toList 1).map Match.captures =
        some #[some 1, some 3, none, none, some 2, some 3] := by
  obtain ⟨m, hm⟩ := exists_ok (x := compile "(?:(a)|(b))*" {} {} Property.standard)
    (by decide +kernel)
  obtain ⟨t, ht⟩ := exists_ok
    (x := Pattern.parse "(?:(a)|(b))*" {} (Budget.clamp {}) Property.standard) (by decide +kernel)
  obtain ⟨hlook, hfirst⟩ := of_toOption (P := fun t =>
    (∀ id ∈ t.reachable, t.isLookAhead id = false) ∧
      t.firstMatch false ⟨false, "cab".toList⟩ 1 =
        some #[some 1, some 3, none, none, some 2, some 3]) (by decide +kernel) ht
  exact ⟨m, t, hm, ht, hlook, (execute_eq_firstMatch hm ht hlook (by decide)).trans hfirst⟩

/-- With look-aheads it finds a match where the backtracking matcher does, at the same place and
with the same groups outside of look-aheads. -/
theorem execute_outside_lookAheads (hm : compile pattern flags budget properties = .ok m)
    (ht : Pattern.parse pattern flags budget.clamp properties = .ok t) {input : List Char}
    {start : Nat} (hstart : start ≤ input.length) :
    Option.Rel (fun (found : Match) captures =>
        let expected : Match := { captures, groupNames := m.groupNames }
        found.range? = expected.range? ∧
          ∀ group, t.insideLookAhead group = false → found.group? group = expected.group? group)
      (m.execute input start) (t.firstMatch flags.sticky ⟨flags.multiline, input⟩ start) := by
  have hwell := Pattern.wellFormed_parse ht
  have hrel := FirstOf.rel_findSome? ((execute_outcome hm ht hstart).mono fun s _ r hr =>
    hr.matchAt hwell)
  unfold Tree.firstMatch
  generalize (starts _ _ _).findSome? _ = expected at hrel ⊢
  cases hfound : m.execute input start with
  | none =>
    rw [hfound] at hrel
    cases hrel
    exact .none
  | some found =>
    rw [hfound] at hrel
    cases hrel with
    | @some _ captures h =>
      have hgroup : ∀ group, t.insideLookAhead group = false →
          found.group? group = Match.group? ⟨captures, m.groupNames⟩ group := fun group hgroup => by
        unfold Match.group?
        rw [h.2 (2 * group) (by simpa using hgroup), h.2 (2 * group + 1) (by
          rw [show (2 * group + 1) / 2 = group by omega]
          exact hgroup)]
      exact .some ⟨hgroup 0 (Tree.insideLookAhead_zero hwell), hgroup⟩

set_option maxRecDepth 100000 in
theorem execute_outside_lookAheads_starred_lookAhead : ∃ m t,
    compile "(?:(?=(a))(a)|b)*" {} {} Property.standard = .ok m ∧
      Pattern.parse "(?:(?=(a))(a)|b)*" {} (Budget.clamp {}) Property.standard = .ok t ∧
      (∃ id ∈ t.reachable, t.isLookAhead id = true) ∧
      ∃ found, m.execute "cba".toList 1 = some found ∧ found.range? = some (1, 3) ∧
        found.group? 2 = some (2, 3) := by
  obtain ⟨m, hm⟩ := exists_ok (x := compile "(?:(?=(a))(a)|b)*" {} {} Property.standard)
    (by decide +kernel)
  obtain ⟨t, ht⟩ := exists_ok
    (x := Pattern.parse "(?:(?=(a))(a)|b)*" {} (Budget.clamp {}) Property.standard)
    (by decide +kernel)
  obtain ⟨hlook, hgroup, hfirst⟩ := of_toOption (P := fun t =>
    (∃ id ∈ t.reachable, t.isLookAhead id = true) ∧ t.insideLookAhead 2 = false ∧
      t.firstMatch false ⟨false, "cba".toList⟩ 1 =
        some #[some 1, some 3, some 2, some 3, some 2, some 3]) (by decide +kernel) ht
  have hrel := execute_outside_lookAheads hm ht (show 1 ≤ "cba".toList.length by decide)
  rw [show Flags.sticky {} = false from rfl, show Flags.multiline {} = false from rfl,
    hfirst] at hrel
  refine ⟨m, t, hm, ht, hlook, ?_⟩
  generalize m.execute "cba".toList 1 = r at hrel ⊢
  cases hrel with
  | some h => exact ⟨_, rfl, h.1, h.2 2 hgroup⟩

end Execute

end PatternAutomata
