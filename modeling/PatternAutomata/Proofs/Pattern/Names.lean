import PatternAutomata.CodePoint.Property
import PatternAutomata.Pattern.Escape

/-!
# Characters that are no letters

The signs of ASCII before the capital letters are in none of the tables by which names are read. The
tables are gone through line by line.
-/

namespace PatternAutomata

namespace CharacterData

/-- All ranges in the lines have the property. -/
def AllRanges (p : CodePointRange → Bool) (lines : List String) : Prop :=
  ∀ r ∈ lines.flatMap lineRanges, p r = true

variable {p : CodePointRange → Bool} {lines : List String}

theorem allRanges_nil : AllRanges p [] := nofun

/-- A line is read as a list of characters, so that evaluation need not take a string apart. -/
theorem allRanges_cons {cs : List Char}
    (h : (cs.foldl RangeText.read ⟨[], none, 0⟩).close.all p = true) (hlines : AllRanges p lines) :
    AllRanges p (String.ofList cs :: lines) := by
  intro r hr
  rw [List.flatMap_cons, lineRanges, String.toList_ofList] at hr
  rcases List.mem_append.mp hr with hr | hr
  · exact List.all_eq_true.mp h r hr
  · exact hlines r hr

theorem not_contains_ofHexRanges {c : Nat} (h : AllRanges p lines)
    (hc : ∀ r, p r = true → r.contains c = false) : (ofHexRanges lines).contains c = false := by
  rw [Bool.eq_false_iff]
  intro hmem
  obtain ⟨r, hr, hbounds⟩ := CodePointSet.mem_ofRanges.mp hmem
  have hnot := hc r (h r hr)
  rw [CodePointRange.contains_iff.mpr hbounds] at hnot
  cases hnot

/-- No character before the letters is alphabetic. -/
theorem not_alphabetic {c : Nat} (hc : c < 0x41) : alphabetic.contains c = false := by
  refine not_contains_ofHexRanges (p := fun r => 0x41 ≤ r.lo) ?_ fun r hr => ?_
  · repeat first | exact allRanges_nil | refine allRanges_cons (by decide +kernel) ?_
  · rw [CodePointRange.contains, Bool.and_eq_false_iff]
    exact .inl (decide_eq_false (Nat.not_le.mpr (Nat.lt_of_lt_of_le hc (of_decide_eq_true hr))))

/-- No character between the digits and the letters is a number. -/
theorem not_number {c : Nat} (h9 : 0x39 < c) (hc : c < 0x41) : number.contains c = false := by
  refine not_contains_ofHexRanges (p := fun r => r.hi ≤ 0x39 || 0x41 ≤ r.lo) ?_ fun r hr => ?_
  · repeat first | exact allRanges_nil | refine allRanges_cons (by decide +kernel) ?_
  · rw [Bool.eq_false_iff]
    simp only [Bool.or_eq_true, decide_eq_true_eq] at hr
    intro hmem
    rw [CodePointRange.contains_iff] at hmem
    omega

/-- What is in no range of the lines is not in the set. -/
theorem not_contains_of_mem {cs : List Nat} {c : Nat}
    (h : AllRanges (fun r => cs.all fun c => !r.contains c) lines) (hc : c ∈ cs) :
    (ofHexRanges lines).contains c = false :=
  not_contains_ofHexRanges h fun _ hr => Bool.not_eq_true' _ ▸ List.all_eq_true.mp hr c hc

/-- The parenthesis that opens, the brackets and the backslash. -/
def scannedSigns : List Nat := [0x28, 0x5B, 0x5C, 0x5D]

theorem not_alphabetic_of_scannedSigns {c : Nat} (hc : c ∈ scannedSigns) :
    alphabetic.contains c = false := by
  refine not_contains_of_mem ?_ hc
  repeat first | exact allRanges_nil | refine allRanges_cons (by decide +kernel) ?_

theorem not_number_of_scannedSigns {c : Nat} (hc : c ∈ scannedSigns) :
    number.contains c = false := by
  refine not_contains_of_mem ?_ hc
  repeat first | exact allRanges_nil | refine allRanges_cons (by decide +kernel) ?_

end CharacterData

namespace Pattern

theorem isNameStart_eq_false {c : Char} (h : c.toNat < 0x41) (hne : c ≠ '$') :
    isNameStart c = false := by
  have hunder : c ≠ '_' := by
    rintro rfl
    revert h
    decide
  have hletter : isAlphabetic c = false := CharacterData.not_alphabetic h
  simp only [isNameStart, beq_false_of_ne hne, beq_false_of_ne hunder, hletter, Bool.or_self]

/-- What ends a name is no part of it. -/
theorem isNamePart_close : isNamePart '>' = false := by
  have hletter : isAlphanumeric '>' = false := Bool.or_eq_false_iff.mpr
    ⟨CharacterData.not_alphabetic (by decide), CharacterData.not_number (by decide) (by decide)⟩
  simp only [isNamePart, hletter]
  decide

/-- What a scan for capture groups looks at is no part of a name. -/
theorem isNamePart_scannedSigns {c : Char} (hc : c.toNat ∈ CharacterData.scannedSigns) :
    isNamePart c = false := by
  have hletter : isAlphanumeric c = false := Bool.or_eq_false_iff.mpr
    ⟨CharacterData.not_alphabetic_of_scannedSigns hc, CharacterData.not_number_of_scannedSigns hc⟩
  have hne : ∀ d : Char, d.toNat ∉ CharacterData.scannedSigns → (c == d) = false := fun d hd =>
    beq_false_of_ne fun heq => hd (heq ▸ hc)
  simp only [isNamePart, hletter, hne '$' (by decide), hne '_' (by decide), hne '\u200C' (by decide),
    hne '\u200D' (by decide), Bool.or_self]

end Pattern

end PatternAutomata
