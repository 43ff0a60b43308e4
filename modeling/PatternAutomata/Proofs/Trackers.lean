import PatternAutomata.Pattern.Reader
import PatternAutomata.Proofs.LookBehind

/-!
# Trackers recognise suffixes

All bodies of a table are looked for at once: their bits lie side by side in one tracker, which
takes one step for each character. An entry keeps to its own bits, so each body is looked for as if
it were the only one. `tracker_recognises` says what every bit means after every text, and with it
which entries are satisfied.
-/

namespace PatternAutomata

theorem EndsIn.singleton_iff {w : List Nat} {set : CodePointSet} :
    EndsIn w [set] ↔ ∃ c, w.getLast? = some c ∧ c ∈ set := by
  induction w using List.reverseRecOn with
  | nil => exact ⟨fun h => (List.cons_ne_nil _ _ h.nil_left).elim, fun ⟨c, hc, _⟩ => by cases hc⟩
  | append_singleton w c =>
    rw [← List.nil_append [set], EndsIn.concat_iff, List.getLast?_concat]
    simp [EndsIn.nil]

namespace LookBehind

/-- The bits of an entry end before those of the next one begin. -/
theorem layOut_pairwise (offset : Nat) (bodies : List (List CodePointSet)) :
    (layOut offset bodies).Pairwise fun e f => e.offset + e.classes.length < f.offset := by
  induction bodies generalizing offset with
  | nil => exact .nil
  | cons body bodies ih =>
    exact List.pairwise_cons.mpr ⟨fun f hf => le_offset_of_mem_layOut hf, ih _⟩

end LookBehind

namespace LookBehindTable

variable {t : LookBehindTable} {tree : Tree} {multiline : Bool}

/-! ## Tables -/

/-- The entries lie side by side from bit 0 on, and those for a word character and for a line
terminator are what they are called. -/
structure WellLaid (t : LookBehindTable) : Prop where
  laidOut : t.LaidOut
  word : ∀ i, t.word = some i →
    (t.entries.map (·.classes))[i]? = some [CodePointSet.wordChars]
  lineTerminator : ∀ i, t.lineTerminator = some i →
    (t.entries.map (·.classes))[i]? = some [CodePointSet.lineTerminators]

theorem wellLaid_of_ofTree (h : ofTree tree multiline = .ok t) : t.WellLaid := by
  refine ⟨laidOut_of_ofTree h, fun i hi => ?_, fun i hi => ?_⟩
  all_goals
    obtain ⟨found, -, htable⟩ := bind_eq_ok.mp h
    cases htable
    simp only [LookBehind.map_classes_layOut]
    simp only at hi
  · split at hi
    · rename_i hword
      cases hi
      rw [List.getElem?_append_right (by simp), if_pos hword]
      simp
    · cases hi
  · split at hi
    · rename_i hline
      cases hi
      rw [if_pos hline]
      split <;> simp
    · cases hi

/-! ## Bits of their own -/

/-- No bit belongs to two entries, and what becomes of the bits of an entry depends on these and on
the character only. -/
structure OwnBits (t : LookBehindTable) : Prop where
  disjoint : ∀ (i j : Nat) (e f : LookBehind), t.entries[i]? = some e → t.entries[j]? = some f →
    ∀ k ≤ e.classes.length, ∀ l ≤ f.classes.length, e.offset + k = f.offset + l → i = j ∧ k = l
  undisturbed : ∀ e ∈ t.entries, ∀ s s' c,
    (∀ k ≤ e.classes.length, s.contains (e.offset + k) = s'.contains (e.offset + k)) →
    ∀ k ≤ e.classes.length,
      (t.advance s c).contains (e.offset + k) = (t.advance s' c).contains (e.offset + k)

/-- A bit is set after a character if the one before it was, and the class between them has the
character. The first bit of an entry is always set. -/
theorem contains_bit_advance (ht : t.LaidOut) {e : LookBehind} (he : e ∈ t.entries) {k : Nat}
    (hk : k ≤ e.classes.length) (s : BitSet) (c : Nat) :
    (t.advance s c).contains (e.offset + k) = true ↔ k = 0 ∨ ∃ j set, k = j + 1 ∧
      e.classes[j]? = some set ∧ s.contains (e.offset + j) = true ∧ c ∈ set := by
  obtain ⟨bodies, hb⟩ := ht
  rw [contains_advance]
  constructor
  · rintro ⟨f, hf, h⟩
    rcases (LookBehind.contains_advance ..).mp h with h | ⟨j, set, hj, h, hbit, hc⟩
    · obtain rfl : e = f := LookBehind.eq_of_mem_layOut (hb ▸ he) (hb ▸ hf) hk (Nat.zero_le _) h
      exact .inl (by omega)
    · obtain ⟨hlt, -⟩ := List.getElem?_eq_some_iff.mp hj
      obtain rfl : e = f := LookBehind.eq_of_mem_layOut (hb ▸ he) (hb ▸ hf) hk hlt h
      exact .inr ⟨j, set, by omega, hj, hbit, hc⟩
  · rintro (rfl | ⟨j, set, rfl, hj, hbit, hc⟩)
    · exact ⟨e, he, (LookBehind.contains_advance ..).mpr (.inl rfl)⟩
    · exact ⟨e, he, (LookBehind.contains_advance ..).mpr (.inr ⟨j, set, hj, rfl, hbit, hc⟩)⟩

theorem ownBits_of_laidOut (ht : t.LaidOut) : t.OwnBits where
  disjoint i j e f hi hj k hk l hl h := by
    obtain ⟨bodies, hb⟩ := ht
    have hpairwise := List.pairwise_iff_getElem.mp (hb ▸ LookBehind.layOut_pairwise 0 bodies)
    obtain ⟨hi', rfl⟩ := List.getElem?_eq_some_iff.mp hi
    obtain ⟨hj', rfl⟩ := List.getElem?_eq_some_iff.mp hj
    rcases Nat.lt_trichotomy i j with hlt | rfl | hlt
    · have := hpairwise i j hi' hj' hlt
      omega
    · exact ⟨rfl, Nat.add_left_cancel h⟩
    · have := hpairwise j i hj' hi' hlt
      omega
  undisturbed e he s s' c hs k hk := by
    rw [Bool.eq_iff_iff, contains_bit_advance ht he hk, contains_bit_advance ht he hk]
    refine or_congr_right (exists_congr fun j => exists_congr fun set => and_congr_right fun h => ?_)
    rw [hs j (by omega)]

/-! ## What the bits say -/

/-- What a tracker says after a text: bit `k` of an entry, that the text ends with the first `k`
classes of the body; and an entry that is satisfied, that it ends with the whole body. -/
structure Recognises (t : LookBehindTable) (w : List Nat) : Prop where
  bit_iff : ∀ e ∈ t.entries, ∀ k ≤ e.classes.length,
    (t.afterCodes w).contains (e.offset + k) = true ↔ EndsIn w (e.classes.take k)
  /-- No other bit is set. -/
  bit_of_entry : ∀ b, (t.afterCodes w).contains b = true →
    ∃ e ∈ t.entries, ∃ k ≤ e.classes.length, b = e.offset + k
  satisfied_iff : ∀ i, (t.satisfied (t.afterCodes w)).contains i = true ↔
    ∃ e, t.entries[i]? = some e ∧ EndsIn w e.classes
  word_iff : ∀ i, t.word = some i → ((t.satisfied (t.afterCodes w)).contains i = true ↔
    ∃ c, w.getLast? = some c ∧ c ∈ CodePointSet.wordChars)
  lineTerminator_iff : ∀ i, t.lineTerminator = some i →
    ((t.satisfied (t.afterCodes w)).contains i = true ↔
      ∃ c, w.getLast? = some c ∧ c ∈ CodePointSet.lineTerminators)

theorem satisfied_singleton_iff (ht : t.LaidOut) (w : List Nat) {i : Nat} {set : CodePointSet}
    (hi : (t.entries.map (·.classes))[i]? = some [set]) :
    (t.satisfied (t.afterCodes w)).contains i = true ↔ ∃ c, w.getLast? = some c ∧ c ∈ set := by
  rw [List.getElem?_map] at hi
  obtain ⟨e, he, hclasses⟩ := Option.map_eq_some_iff.mp hi
  rw [contains_satisfied_afterCodes ht w he, hclasses, EndsIn.singleton_iff]

theorem recognises (ht : t.WellLaid) (w : List Nat) : t.Recognises w where
  bit_iff _ he _ hk := contains_bit_afterCodes ht.laidOut he hk
  bit_of_entry b hb := by
    obtain ⟨e, he, k, hk, h, -⟩ := (contains_afterCodes ht.laidOut w b).mp hb
    exact ⟨e, he, k, hk, h⟩
  satisfied_iff i := by
    constructor
    · intro h
      obtain ⟨e, he, -⟩ := (contains_satisfied ..).mp h
      exact ⟨e, he, (contains_satisfied_afterCodes ht.laidOut w he).mp h⟩
    · rintro ⟨e, he, hends⟩
      exact (contains_satisfied_afterCodes ht.laidOut w he).mpr hends
  word_iff i hi := satisfied_singleton_iff ht.laidOut w (ht.word i hi)
  lineTerminator_iff i hi := satisfied_singleton_iff ht.laidOut w (ht.lineTerminator i hi)

/-- The tables of patterns are well laid, and in such a table, with any number of bodies of any
lengths, every entry has bits of its own, which say after every text with how much of the body it
ends. -/
theorem tracker_recognises :
    (∀ tree multiline t, ofTree tree multiline = .ok t → t.WellLaid) ∧
    ∀ t : LookBehindTable, t.WellLaid → t.OwnBits ∧ ∀ w, t.Recognises w :=
  ⟨fun _ _ _ h => wellLaid_of_ofTree h,
    fun _ ht => ⟨ownBits_of_laidOut ht.laidOut, fun w => recognises ht w⟩⟩

set_option maxRecDepth 100000 in
/-- An empty body and one of two classes, with the entries for word characters and line ends. -/
theorem tracker_recognises_empty_body : ∃ tree t,
    Pattern.parse "(?<=)(?<=a[ab])c\\b|^" { multiline := true } {} Property.standard = .ok tree ∧
    ofTree tree true = .ok t ∧ t.OwnBits ∧ t.Recognises [0x62, 0x61, 0x62] ∧
    t.entries.map (·.classes.length) = [0, 2, 1, 1] ∧
    (t.satisfied (t.afterCodes [0x62, 0x61, 0x62])).toList = [0, 1, 2] := by
  obtain ⟨tree, htree⟩ := exists_ok
    (x := Pattern.parse "(?<=)(?<=a[ab])c\\b|^" { multiline := true } {} Property.standard)
    (by decide +kernel)
  obtain ⟨t, ht⟩ := exists_ok (x := ofTree tree true)
    (of_toOption (P := fun tree => (ofTree tree true).isOk = true) (by decide +kernel) htree)
  obtain ⟨hlaid, hall⟩ := tracker_recognises
  obtain ⟨hown, hrecognises⟩ := hall t (hlaid tree true t ht)
  obtain ⟨hlengths, hsatisfied⟩ := of_toOption (P := fun tree => ∀ t ∈ (ofTree tree true).toOption,
    t.entries.map (·.classes.length) = [0, 2, 1, 1] ∧
      (t.satisfied (t.afterCodes [0x62, 0x61, 0x62])).toList = [0, 1, 2])
    (by decide +kernel) htree t (toOption_eq_some_iff.mpr ht)
  exact ⟨tree, t, htree, ht, hown, hrecognises _, hlengths, hsatisfied⟩

end LookBehindTable

end PatternAutomata
