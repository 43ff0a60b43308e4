import PatternAutomata.Proofs.Compile

/-!
# Searching is matching at one start after the other

The sticky flag tells where a match may begin, and nothing else. So a search finds what the sticky
pattern finds at the first position at which it matches.
-/

namespace PatternAutomata

variable {pattern : String} {flags : Flags} {budget : Budget} {properties : PropertyLookup}
  {m m' : Matcher}

/-- What a search finds is what the sticky pattern finds at the first start at which it matches. -/
theorem execute_eq_findSome?_sticky
    (hm : compile pattern { flags with sticky := false } budget properties = .ok m)
    (hm' : compile pattern { flags with sticky := true } budget properties = .ok m')
    (input : List Char) (start : Nat) :
    m.execute input start =
      (List.range' start (input.length + 1 - start)).findSome? (m'.execute input) := by
  obtain ⟨t, n, a, ht, hn, hfinds, rfl⟩ := compile_finds hm
  obtain ⟨t', n', a', ht', hn', hfinds', rfl⟩ := compile_finds hm'
  -- Reading the pattern does not depend on the flag.
  obtain rfl : t = t' := Except.ok.inj (ht.symm.trans ht')
  obtain rfl : n = n' := Except.ok.inj (hn.symm.trans hn')
  have hsearch : a.search input start =
      (List.range' start (input.length + 1 - start)).findSome? (a'.search input) := by
    by_cases hstart : start ≤ input.length
    · refine FirstOf.eq_findSome? ((hfinds input start hstart).mono fun s hs r hr => ?_)
      obtain ⟨-, hlt⟩ := List.mem_range'_1.mp hs
      have hle : s ≤ input.length := by omega
      exact hr.det (FirstOf.singleton_iff.mp (hfinds' input s hle))
    · rw [Dfa.search, if_neg hstart, show input.length + 1 - start = 0 by omega]
      rfl
  rw [Matcher.execute, hsearch, List.map_findSome?]
  rfl

set_option maxRecDepth 100000 in
theorem execute_eq_findSome?_sticky_optional : ∃ m m',
    compile "(?:\\b(a)|c)b?" {} {} Property.standard = .ok m ∧
      compile "(?:\\b(a)|c)b?" { sticky := true } {} Property.standard = .ok m' ∧
      (m.execute "aacb".toList 1).map Match.captures = some #[some 2, some 4, none, none] ∧
      (m'.execute "aacb".toList 1).map Match.captures = none := by
  obtain ⟨m, hm⟩ := exists_ok (x := compile "(?:\\b(a)|c)b?" {} {} Property.standard)
    (by decide +kernel)
  obtain ⟨m', hm'⟩ := exists_ok
    (x := compile "(?:\\b(a)|c)b?" { sticky := true } {} Property.standard) (by decide +kernel)
  obtain ⟨h1, h2⟩ := of_toOption (P := fun m' => (m'.execute "aacb".toList 1).map Match.captures = none ∧
    ((List.range' 1 4).findSome? (m'.execute "aacb".toList)).map Match.captures =
      some #[some 2, some 4, none, none]) (by decide +kernel) hm'
  refine ⟨m, m', hm, hm', ?_, h1⟩
  rw [@execute_eq_findSome?_sticky _ {} _ _ _ _ hm hm']
  exact h2

end PatternAutomata
