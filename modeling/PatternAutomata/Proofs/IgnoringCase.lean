import PatternAutomata.Proofs.Compile
import PatternAutomata.Proofs.Nfa.Blind
import PatternAutomata.Proofs.Pattern.Folding

/-!
# Ignoring case

Texts whose characters differ only in case have the same matches, if the pattern ignores case. The
word boundaries are an exception: with the unicode flag the long s is the same letter as `s`, and
the Kelvin sign the same as `k`, but the boundaries count neither of them as a word character.
-/

namespace PatternAutomata

variable {pattern : String} {flags : Flags} {budget : Budget} {properties : PropertyLookup}
  {m : Matcher} {t : Tree}

/-- Both characters are word characters, or neither is. -/
def SameWordness (c d : Char) : Prop :=
  CodePointSet.wordChars.contains c.toNat = CodePointSet.wordChars.contains d.toNat

instance (c d : Char) : Decidable (SameWordness c d) :=
  inferInstanceAs (Decidable (_ = _))

/-- A pattern that ignores case finds the same in texts of the same letters, if these are the same
to the word boundaries that it may contain. -/
theorem execute_eq_of_sameLetters (hi : flags.ignoreCase = true)
    (hs : Pattern.BoundedProperties properties)
    (ht : Pattern.parse pattern flags budget.clamp properties = .ok t)
    (hm : compile pattern flags budget properties = .ok m) {input input' : List Char}
    (hw : List.Forall₂ (SameLetter flags.unicode) input input')
    (hword : flags.unicode = true → t.asksForWords = true → List.Forall₂ SameWordness input input')
    (start : Nat) : m.execute input start = m.execute input' start := by
  obtain ⟨t', n, a, ht', hn, hfinds, rfl⟩ := compile_finds hm
  obtain rfl : t = t' := Except.ok.inj (ht.symm.trans ht')
  -- All that the automaton looks at in a character is the letter and, if need be, whether that is a
  -- word character.
  let R (c d : Char) : Prop := SameLetter flags.unicode c d ∧
    (flags.unicode = true → t.asksForWords = true → SameWordness c d)
  have hR : List.Forall₂ R input input' := by
    obtain ⟨hlength, hletters⟩ := List.forall₂_iff_zip.mp hw
    refine List.forall₂_iff_zip.mpr ⟨hlength, fun hmem => ⟨hletters hmem, fun hu hasks => ?_⟩⟩
    exact (List.forall₂_iff_zip.mp (hword hu hasks)).2 hmem
  have hblind : n.Blind R := by
    refine Nfa.blind_of_tree hn ?_ ?_ ?_
    · exact fun id set hset => (Pattern.blind_of_parse hi hs ht hset).mono fun _ _ h => h.1
    · exact CodePointSet.blind_lineTerminators.mono fun _ _ h => h.1
    · intro hasks c d hcd
      cases hu : flags.unicode with
      | false => exact CodePointSet.blind_wordChars c d (hu ▸ hcd.1)
      | true => exact hcd.2 hu hasks
  exact congrArg (Option.map _)
    (hfinds.search_eq hfinds hw.length_eq (fun _ _ h => hblind.startFinds hR h) start)

/-- The only known property is that of the ASCII characters. -/
def asciiProperty : PropertyLookup := fun name _ =>
  if name = "ASCII" then some (.ofRange (.between 0 0x7F)) else none

theorem boundedProperties_ascii : Pattern.BoundedProperties asciiProperty := by
  intro name value set hset
  unfold asciiProperty at hset
  split at hset <;> cases hset
  exact CodePointSet.bounded_iff.mpr (by decide)

set_option maxRecDepth 100000 in
theorem execute_eq_of_sameLetters_lookBehind :
    let flags : Flags := { ignoreCase := true, unicode := true }
    ∃ m, compile "(?<=\\p\x7bASCII\x7d)s\\b" flags {} asciiProperty = .ok m ∧
      m.execute "ks".toList 0 = m.execute "KS".toList 0 ∧
      (m.execute "ks".toList 0).map Match.captures = some #[some 1, some 2] := by
  intro flags
  obtain ⟨m, hm⟩ := exists_ok
    (x := compile "(?<=\\p\x7bASCII\x7d)s\\b" flags {} asciiProperty) (by decide +kernel)
  obtain ⟨t, a, ht, -⟩ := compile_eq_ok_iff.mp hm
  have hw : List.Forall₂ (SameLetter true) "ks".toList "KS".toList := by decide +kernel
  have hword : List.Forall₂ SameWordness "ks".toList "KS".toList := by decide +kernel
  refine ⟨m, hm, ?_, ?_⟩
  · exact execute_eq_of_sameLetters rfl boundedProperties_ascii ht hm hw (fun _ _ => hword) 0
  · exact of_toOption (P := fun m => (m.execute "ks".toList 0).map Match.captures =
      some #[some 1, some 2]) (by decide +kernel) hm

set_option maxRecDepth 100000 in
/-- The long s is the same letter as `s`, but there is no word boundary before it. -/
theorem execute_ne_longS :
    let flags : Flags := { ignoreCase := true, unicode := true }
    ∃ m, compile "\\bs" flags {} Property.standard = .ok m ∧
      List.Forall₂ (SameLetter true) "s".toList "ſ".toList ∧
      (m.execute "s".toList 0).map Match.captures = some #[some 0, some 1] ∧
      (m.execute "ſ".toList 0).map Match.captures = none := by
  intro flags
  obtain ⟨m, hm⟩ := exists_ok (x := compile "\\bs" flags {} Property.standard) (by decide +kernel)
  have hw : List.Forall₂ (SameLetter true) "s".toList "ſ".toList := by decide +kernel
  obtain ⟨hs, hlong⟩ := of_toOption (P := fun m =>
    (m.execute "s".toList 0).map Match.captures = some #[some 0, some 1] ∧
      (m.execute "ſ".toList 0).map Match.captures = none) (by decide +kernel) hm
  exact ⟨m, hm, hw, hs, hlong⟩

end PatternAutomata
