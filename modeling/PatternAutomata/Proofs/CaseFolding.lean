import PatternAutomata.Proofs.CaseForms
import PatternAutomata.Proofs.LazySets

/-!
# Case folding, whatever the case mappings

Which characters are equivalent is said by the upper-case mapping of the language and by a table of
simple foldings. Without the unicode flag the members of a set are joined by their whole classes,
which are those of the upper-case mapping. With it, the ranges of the set are split at the
surrogates, which have no case, and the table is asked for each character.

Both ways add exactly the characters that are equivalent to a member, so folding is the closure
under equivalence. The closure that patterns are compiled with is folding by particular mappings.
-/

namespace PatternAutomata

/-- The last code point at which a letter with an upper-case form is looked for. -/
def maxCased : Nat := 0x1FFFF

def charOf? (n : Nat) : Option Char :=
  if h : n.isValidChar then some (Char.ofNatAux n h) else none

/-- The characters among the code points from `lo` to `hi`. -/
def charsBetween (lo hi : Nat) : List Char := (List.range' lo (hi + 1 - lo)).filterMap charOf?

theorem charOf?_eq_some_iff {n : Nat} {c : Char} : charOf? n = some c ↔ c.toNat = n := by
  by_cases hvalid : n.isValidChar
  · rw [charOf?, dif_pos hvalid, Option.some_inj, ← Char.toNat_inj]
    exact eq_comm
  · rw [charOf?, dif_neg hvalid]
    refine ⟨nofun, ?_⟩
    rintro rfl
    exact absurd c.valid hvalid

theorem mem_charsBetween {lo hi : Nat} {c : Char} :
    c ∈ charsBetween lo hi ↔ lo ≤ c.toNat ∧ c.toNat ≤ hi := by
  simp only [charsBetween, List.mem_filterMap, List.mem_range'_1, charOf?_eq_some_iff]
  constructor
  · rintro ⟨n, hn, rfl⟩
    omega
  · intro h
    exact ⟨c.toNat, by omega, rfl⟩

/-- What is known about the cases of characters. -/
structure CaseMappings where
  /-- The upper-case form of a character, which may be several characters. -/
  upper : Char → List Char
  /-- The other characters with the same simple folding, if there is a table of simple foldings. -/
  simple? : Option (Char → List Char)

open CodePointSet

namespace CaseMappings

variable {m : CaseMappings} {fold : Char → Char} {unicode : Bool} {a b c : Char}

/-! ## Equivalence -/

/-- The character that `c` stands for without the unicode flag. It is the upper-case form if that is
a single character, but no character outside ASCII stands for one in ASCII. -/
def canonical (m : CaseMappings) (c : Char) : Char :=
  match m.upper c with
  | [u] => if 128 ≤ c.toNat ∧ u.toNat < 128 then c else u
  | _ => c

/-- The characters differ in case at most. -/
def Equivalent (m : CaseMappings) (fold : Char → Char) : Bool → Char → Char → Prop
  | false, a, b => m.canonical a = m.canonical b
  | true, a, b => fold a = fold b

/-- What folding relies on: no character above `maxCased` is changed or reached by the upper-case
mapping, and the table has the other characters with the same folding for each character. -/
def Lawful (m : CaseMappings) (fold : Char → Char) : Bool → Prop
  | false => ∀ c u, m.upper c = [u] → maxCased < c.toNat ∨ maxCased < u.toNat → u = c
  | true => ∃ others, m.simple? = some others ∧ ∀ a b, b ∈ others a ↔ b ≠ a ∧ fold b = fold a

theorem Equivalent.symm (h : m.Equivalent fold unicode a b) : m.Equivalent fold unicode b a := by
  cases unicode with
  | false => exact Eq.symm h
  | true => exact Eq.symm h

theorem Equivalent.trans (h : m.Equivalent fold unicode a b) (h' : m.Equivalent fold unicode b c) :
    m.Equivalent fold unicode a c := by
  cases unicode with
  | false => exact Eq.trans h h'
  | true => exact Eq.trans h h'

/-- Above `maxCased` a character stands for itself only. -/
theorem canonical_of_high (h : m.Lawful fold false)
    (hc : maxCased < c.toNat ∨ maxCased < (m.canonical c).toNat) : m.canonical c = c := by
  unfold canonical at hc ⊢
  split
  · rename_i u hu
    split
    · rfl
    · rename_i hascii
      simp only [hu, if_neg hascii] at hc
      exact h c u hu hc
  · rfl

theorem le_maxCased_of_equivalent (h : m.Lawful fold false) (hne : a ≠ b)
    (hab : m.canonical a = m.canonical b) : a.toNat ≤ maxCased := by
  by_contra hhigh
  have ha := canonical_of_high h (.inl (Nat.lt_of_not_le hhigh))
  have hb := canonical_of_high (c := b) h (.inr (by
    rw [← hab, ha]
    exact Nat.lt_of_not_le hhigh))
  exact hne (ha.symm.trans (hab.trans hb))

/-! ## Folding without the unicode flag -/

/-- The characters that stand for `form`, if there are at least two. -/
def class? (m : CaseMappings) (form : Char) : Option (List Char) :=
  let members := (charsBetween 0 maxCased).filter (m.canonical · = form)
  if 1 < members.length then some members else none

/-- The classes of the characters of a range, without the range itself. -/
def classmates (m : CaseMappings) (r : CodePointRange) : List CodePointRange :=
  (charsBetween r.lo (min r.hi maxCased)).flatMap fun c =>
    let members := (m.class? (m.canonical c)).getD []
    (members.filter fun b => !r.contains b.toNat).map fun b => .single b.toNat

theorem canonical_of_mem_class? {members : List Char} {form : Char}
    (h : m.class? form = some members) (hb : b ∈ members) : m.canonical b = form := by
  unfold class? at h
  simp only at h
  split at h
  · cases h
    simpa using (List.mem_filter.mp hb).2
  · cases h

/-- Two different characters with the same form are in the class of that form. -/
theorem mem_class? (h : m.Lawful fold false) (hne : a ≠ b) (hab : m.canonical a = m.canonical b) :
    ∃ members, m.class? (m.canonical a) = some members ∧ b ∈ members := by
  have hmem : ∀ c, c.toNat ≤ maxCased → m.canonical c = m.canonical a →
      c ∈ (charsBetween 0 maxCased).filter (m.canonical · = m.canonical a) := fun c hc heq =>
    List.mem_filter.mpr ⟨mem_charsBetween.mpr ⟨Nat.zero_le _, hc⟩, by simpa using heq⟩
  have ha := hmem a (le_maxCased_of_equivalent h hne hab) rfl
  have hb := hmem b (le_maxCased_of_equivalent h hne.symm hab.symm) hab.symm
  unfold class?
  generalize (charsBetween 0 maxCased).filter (m.canonical · = m.canonical a) = members at ha hb
  have htwo : 1 < members.length := by
    match members, ha, hb with
    | [_], ha, hb =>
      exact absurd ((List.mem_singleton.mp ha).trans (List.mem_singleton.mp hb).symm) hne
    | _ :: _ :: rest, _, _ => simp
  exact ⟨members, if_pos htwo, hb⟩

theorem covers_classmates {r : CodePointRange} {c : Nat} :
    Covers (m.classmates r) c ↔ ∃ a b : Char, (r.lo ≤ a.toNat ∧ a.toNat ≤ min r.hi maxCased) ∧
      (∃ members, m.class? (m.canonical a) = some members ∧ b ∈ members) ∧
      r.contains b.toNat = false ∧ b.toNat = c := by
  have hmembers : ∀ (a b : Char), b ∈ (m.class? (m.canonical a)).getD [] ↔
      ∃ members, m.class? (m.canonical a) = some members ∧ b ∈ members := fun a b => by
    cases m.class? (m.canonical a) <;> simp
  simp only [classmates, covers_flatMap, covers_map_single, mem_charsBetween, List.mem_filter,
    Bool.not_eq_true', hmembers]
  constructor
  · rintro ⟨a, ha, b, ⟨hb, hout⟩, rfl⟩
    exact ⟨a, b, ha, hb, hout, rfl⟩
  · rintro ⟨a, b, ha, hb, hout, rfl⟩
    exact ⟨a, ha, b, ⟨hb, hout⟩, rfl⟩

/-! ## Folding with the unicode flag -/

/-- The characters of the ranges, with those that have the same simple folding. Without a table
there are none. -/
def simpleClosure (m : CaseMappings) (rs : List CodePointRange) : List CodePointRange :=
  match m.simple? with
  | none => []
  | some others =>
    let parts := rs.flatMap charParts
    let added := (parts.flatMap fun p => charsBetween p.lo p.hi).flatMap others
    (ofRanges (parts ++ added.map fun b => .single b.toNat)).ranges

theorem covers_simpleClosure {others : Char → List Char} (h : m.simple? = some others)
    {rs : List CodePointRange} (hrs : ∀ r ∈ rs, r.hi ≤ maxCodePoint) {c : Nat} :
    Covers (m.simpleClosure rs) c ↔ Covers (rs.flatMap charParts) c ∨
      ∃ a b : Char, Covers rs a.toNat ∧ b ∈ others a ∧ b.toNat = c := by
  unfold simpleClosure
  simp only [h, covers_ranges_ofRanges, covers_append, covers_map_single]
  refine or_congr_right ?_
  constructor
  · rintro ⟨b, hb, rfl⟩
    obtain ⟨a, ha, hb⟩ := List.mem_flatMap.mp hb
    obtain ⟨part, hpart, ha⟩ := List.mem_flatMap.mp ha
    exact ⟨a, b, (covers_charParts hrs).mp ⟨part, hpart, mem_charsBetween.mp ha⟩, hb, rfl⟩
  · rintro ⟨a, b, ha, hb, rfl⟩
    obtain ⟨part, hpart, ha⟩ := (covers_charParts hrs).mpr ha
    exact ⟨b, List.mem_flatMap.mpr ⟨a, List.mem_flatMap.mpr ⟨part, hpart, mem_charsBetween.mpr ha⟩,
      hb⟩, rfl⟩

end CaseMappings

/-! ## Folding -/

namespace CodePointSet

variable {m : CaseMappings} {fold : Char → Char} {unicode : Bool} {s t : CodePointSet}

/-- The set with all characters that are equivalent to a member. -/
def caseFold (m : CaseMappings) (unicode : Bool) (s : CodePointSet) : CodePointSet :=
  ofRanges (s.ranges ++
    if unicode then m.simpleClosure s.ranges
    else (s.ranges.filter (·.lo ≤ maxCased)).flatMap m.classmates)

/-- Folding adds the characters that are equivalent to a member, and nothing else. -/
theorem mem_caseFold (h : m.Lawful fold unicode) (hs : s.Bounded) {c : Nat} :
    c ∈ s.caseFold m unicode ↔ c ∈ s ∨
      ∃ a b : Char, a.toNat ∈ s ∧ m.Equivalent fold unicode a b ∧ b.toNat = c := by
  refine (mem_ofRanges.trans covers_append).trans ?_
  constructor
  · rintro (hc | hc)
    · exact .inl (mem_iff.mpr hc)
    · cases unicode with
      | false =>
        obtain ⟨r, hr, hc⟩ := covers_flatMap.mp hc
        obtain ⟨a, b, ha, ⟨members, hclass, hb⟩, -, rfl⟩ := CaseMappings.covers_classmates.mp hc
        exact .inr ⟨a, b, mem_iff.mpr ⟨r, (List.mem_filter.mp hr).1, ha.1,
          Nat.le_trans ha.2 (Nat.min_le_left ..)⟩,
          (CaseMappings.canonical_of_mem_class? hclass hb).symm, rfl⟩
      | true =>
        obtain ⟨others, hothers, hmem⟩ := h
        rcases (CaseMappings.covers_simpleClosure hothers (bounded_iff.mp hs)).mp hc with hc | hc
        · exact .inl (mem_iff.mpr (covers_of_charParts hc))
        · obtain ⟨a, b, ha, hb, rfl⟩ := hc
          exact .inr ⟨a, b, mem_iff.mpr ha, ((hmem a b).mp hb).2.symm, rfl⟩
  · rintro (hc | ⟨a, b, ha, hab, rfl⟩)
    · exact .inl (mem_iff.mp hc)
    · by_cases hb : b.toNat ∈ s
      · exact .inl (mem_iff.mp hb)
      · have hne : a ≠ b := fun heq => hb (heq ▸ ha)
        refine .inr ?_
        cases unicode with
        | false =>
          have hlow := CaseMappings.le_maxCased_of_equivalent h hne hab
          obtain ⟨r, hr, hlo, hhi⟩ := mem_iff.mp ha
          have hout : r.contains b.toNat = false := Bool.eq_false_iff.mpr fun hin =>
            hb (mem_iff.mpr ⟨r, hr, by simpa [CodePointRange.contains] using hin⟩)
          exact covers_flatMap.mpr ⟨r,
            List.mem_filter.mpr ⟨hr, decide_eq_true (Nat.le_trans hlo hlow)⟩,
            CaseMappings.covers_classmates.mpr ⟨a, b, ⟨hlo, Nat.le_min.mpr ⟨hhi, hlow⟩⟩,
              CaseMappings.mem_class? h hne hab, hout, rfl⟩⟩
        | true =>
          obtain ⟨others, hothers, hmem⟩ := h
          exact (CaseMappings.covers_simpleClosure hothers (bounded_iff.mp hs)).mpr (.inr
            ⟨a, b, mem_iff.mp ha, (hmem a b).mpr ⟨hne.symm, hab.symm⟩, rfl⟩)

/-! ### Laws -/

section Laws

variable (h : m.Lawful fold unicode)
include h

theorem subset_caseFold (hs : s.Bounded) {c : Nat} (hc : c ∈ s) : c ∈ s.caseFold m unicode :=
  (mem_caseFold h hs).mpr (.inl hc)

theorem bounded_caseFold (hs : s.Bounded) : (s.caseFold m unicode).Bounded := by
  intro c hc
  rcases (mem_caseFold h hs).mp hc with hc | ⟨a, b, -, -, rfl⟩
  · exact hs c hc
  · exact toNat_le_maxCodePoint b

theorem blind_caseFold (hs : s.Bounded) :
    (s.caseFold m unicode).Blind (m.Equivalent fold unicode) := by
  have hone : ∀ a b : Char, m.Equivalent fold unicode a b → a.toNat ∈ s.caseFold m unicode →
      b.toNat ∈ s.caseFold m unicode := by
    intro a b hab ha
    refine (mem_caseFold h hs).mpr (.inr ?_)
    rcases (mem_caseFold h hs).mp ha with ha | ⟨a', b', ha', hab', heq⟩
    · exact ⟨a, b, ha, hab, rfl⟩
    · obtain rfl := Char.toNat_inj.mp heq
      exact ⟨a', b, ha', hab'.trans hab, rfl⟩
  exact fun a b hab => Bool.eq_iff_iff.mpr ⟨hone a b hab, hone b a hab.symm⟩

/-- A set that does not tell equivalent characters apart is its own folding. -/
theorem caseFold_of_blind (hs : s.Bounded) (hblind : s.Blind (m.Equivalent fold unicode)) :
    s.caseFold m unicode = s := by
  refine eq_of_mem_iff fun c => (mem_caseFold h hs).trans ⟨?_, .inl⟩
  rintro (hc | ⟨a, b, ha, hab, rfl⟩)
  · exact hc
  · exact (hblind a b hab).symm.trans ha

theorem caseFold_caseFold (hs : s.Bounded) :
    (s.caseFold m unicode).caseFold m unicode = s.caseFold m unicode :=
  caseFold_of_blind h (bounded_caseFold h hs) (blind_caseFold h hs)

theorem caseFold_compl (hs : s.Bounded) :
    (s.caseFold m unicode).compl.caseFold m unicode = (s.caseFold m unicode).compl :=
  caseFold_of_blind h (bounded_caseFold h hs).compl (blind_caseFold h hs).compl

theorem caseFold_mono (hs : s.Bounded) (ht : t.Bounded) (hst : ∀ c ∈ s, c ∈ t) :
    ∀ c ∈ s.caseFold m unicode, c ∈ t.caseFold m unicode := by
  intro c hc
  refine (mem_caseFold h ht).mpr ?_
  rcases (mem_caseFold h hs).mp hc with hc | ⟨a, b, ha, hab⟩
  · exact .inl (hst c hc)
  · exact .inr ⟨a, b, hst _ ha, hab⟩

theorem caseFold_union (hs : s.Bounded) (ht : t.Bounded) :
    (s.union t).caseFold m unicode = (s.caseFold m unicode).union (t.caseFold m unicode) := by
  have hunion : (s.union t).Bounded := fun c hc => (mem_union.mp hc).elim (hs c) (ht c)
  refine eq_of_mem_iff fun c => ?_
  rw [mem_union, mem_caseFold h hunion, mem_caseFold h hs, mem_caseFold h ht]
  simp only [mem_union, or_and_right, exists_or]
  exact or_or_or_comm

end Laws

end CodePointSet

/-! ## The mappings in use -/

namespace CaseForms

/-- The letters are characters, and so are their forms. -/
structure Valid (forms : CaseForms) (form : Nat → Nat) : Prop where
  letter : ∀ c f, (c, f) ∈ forms → c.isValidChar
  form : ∀ c, form c = c ∨ ∃ f, (form c, f) ∈ forms

theorem Valid.toNat_form {forms : CaseForms} {form : Nat → Nat} (h : forms.Valid form) (c : Char) :
    (Char.ofNat (form c.toNat)).toNat = form c.toNat := by
  have hvalid : (form c.toNat).isValidChar := by
    rcases h.form c.toNat with heq | ⟨f, hf⟩
    · rw [heq]
      exact c.valid
    · exact h.letter _ f hf
  rw [Char.ofNat, dif_pos hvalid]
  rfl

end CaseForms

theorem upperForm_eq_or_mem (c : Nat) : upperForm c = c ∨ (c, upperForm c) ∈ raised := by
  rw [upperForm_eq]
  cases hc : raised.lookup c with
  | none => exact .inl rfl
  | some f => exact .inr (mem_of_lookup hc)

set_option maxRecDepth 100000 in
theorem valid_upperForms : upperForms.Valid upperForm where
  letter c f h := by
    have hall : ∀ p ∈ upperForms, p.1 < 0xD800 ∨ 0xDFFF < p.1 ∧ p.1 < 0x110000 := by decide +kernel
    exact hall _ h
  form c := (upperForm_eq_or_mem c).imp_right fun hc =>
    ⟨_, List.mem_append_right _ (List.mem_map.mpr ⟨_, hc, rfl⟩)⟩

theorem valid_foldForms : foldForms.Valid foldForm where
  letter c f h := CodePointSet.valid_of_mem_foldForms h
  form c := by
    unfold foldForm
    cases hc : foldForms.lookup c with
    | none => exact .inl rfl
    | some f => exact .inr ⟨f, foldForms_form (mem_of_lookup hc)⟩

/-- The character of a table that all characters with the same simple folding share. -/
def simpleForm (c : Char) : Char := Char.ofNat (foldForm c.toNat)

namespace CaseMappings

/-- The mappings of the tables. Where an upper-case form is not that of a single letter, or does not
count because it lies in ASCII, the character is its own form. -/
def standard : CaseMappings where
  upper c := [Char.ofNat (upperForm c.toNat)]
  simple? := some fun c =>
    (foldForms.filter fun p => p.2 = foldForm c.toNat ∧ p.1 ≠ c.toNat).filterMap fun p => charOf? p.1

theorem simpleForm_eq_iff {a b : Char} :
    simpleForm a = simpleForm b ↔ foldForm a.toNat = foldForm b.toNat := by
  rw [← Char.toNat_inj]
  simp only [simpleForm, valid_foldForms.toNat_form]

set_option maxRecDepth 100000 in
theorem toNat_canonical_standard (c : Char) : (standard.canonical c).toNat = upperForm c.toNat := by
  -- No letter outside ASCII is raised to one in ASCII.
  have hascii : ∀ p ∈ raised, 128 ≤ p.1 → 128 ≤ p.2 := by decide +kernel
  have hlow : ¬(128 ≤ c.toNat ∧ upperForm c.toNat < 128) := by
    rintro ⟨hc, hu⟩
    rcases upperForm_eq_or_mem c.toNat with heq | hmem
    · exact absurd hc (Nat.not_le.mpr (heq ▸ hu))
    · exact absurd (hascii _ hmem hc) (Nat.not_le.mpr hu)
  simp only [canonical, standard, valid_upperForms.toNat_form, if_neg hlow]

set_option maxRecDepth 100000 in
theorem lawful_standard (unicode : Bool) : standard.Lawful simpleForm unicode := by
  cases unicode with
  | false =>
    intro c u hu hhigh
    obtain rfl := List.singleton_inj.mp hu
    have hall : ∀ p ∈ raised, p.1 ≤ maxCased ∧ p.2 ≤ maxCased := by decide +kernel
    rw [valid_upperForms.toNat_form] at hhigh
    rw [← Char.toNat_inj, valid_upperForms.toNat_form]
    refine (upperForm_eq_or_mem c.toNat).resolve_right fun hmem => ?_
    have := hall _ hmem
    omega
  | true =>
    refine ⟨_, rfl, fun a b => ?_⟩
    simp only [List.mem_filterMap, List.mem_filter, charOf?_eq_some_iff, simpleForm_eq_iff,
      decide_eq_true_eq]
    constructor
    · rintro ⟨⟨_, f⟩, ⟨hmem, hform, hne⟩, rfl⟩
      exact ⟨fun heq => hne (congrArg Char.toNat heq),
        (foldForms_describes.form_eq _ _ hmem).trans hform⟩
    · rintro ⟨hne, heq⟩
      have hne' : b.toNat ≠ a.toNat := fun h => hne (Char.toNat_inj.mp h)
      exact ⟨(b.toNat, foldForm b.toNat), ⟨foldForms_describes.mem _ _ heq hne', heq, hne'⟩, rfl⟩

end CaseMappings

namespace CodePointSet

variable {s : CodePointSet} {unicode : Bool}

/-- The closure that patterns are compiled with is folding by the mappings in use. -/
theorem caseClosure_eq_caseFold (hs : s.Bounded) :
    s.caseClosure unicode = s.caseFold .standard unicode := by
  -- Code points that share a form are the same, or letters.
  have hchars : ∀ (forms : CaseForms) (form : Nat → Nat), forms.Describes form → forms.Valid form →
      ∀ c, (∃ d ∈ s, form c = form d) ↔
        c ∈ s ∨ ∃ a b : Char, a.toNat ∈ s ∧ form a.toNat = form b.toNat ∧ b.toNat = c := by
    intro forms form hdescribes hvalid c
    constructor
    · rintro ⟨d, hd, heq⟩
      by_cases hne : c = d
      · exact .inl (hne ▸ hd)
      · have hc := hvalid.letter _ _ (hdescribes.mem c d heq hne)
        have hd' := hvalid.letter _ _ (hdescribes.mem d c heq.symm (Ne.symm hne))
        exact .inr ⟨Char.ofNatAux d hd', Char.ofNatAux c hc, hd, heq.symm, rfl⟩
    · rintro (hc | ⟨a, b, ha, heq, rfl⟩)
      · exact ⟨c, hc, rfl⟩
      · exact ⟨a.toNat, ha, heq.symm⟩
  refine eq_of_mem_iff fun c => ?_
  rw [mem_caseClosure hs, mem_caseFold (CaseMappings.lawful_standard unicode) hs]
  cases unicode with
  | false =>
    simp only [CaseMappings.Equivalent, ← Char.toNat_inj, CaseMappings.toNat_canonical_standard]
    exact hchars _ _ upperForms_describes valid_upperForms c
  | true =>
    simp only [CaseMappings.Equivalent, CaseMappings.simpleForm_eq_iff]
    exact hchars _ _ foldForms_describes valid_foldForms c

/-- So is the closure of ranges in any order. -/
theorem caseClosure_lazySet {rs : List CodePointRange} (hrs : ∀ r ∈ rs, r.hi ≤ maxCodePoint) :
    (LazySet.ofRanges rs).caseClosure unicode =
      .ofSet ((ofRanges rs).caseFold .standard unicode) := by
  have hsame : ofRanges (LazySet.ofRanges rs).normalForm = ofRanges rs := eq_of_mem_iff fun c =>
    (mem_ofRanges.trans (LazySet.Represents.ofRanges rs).covers_normalForm).trans mem_ofRanges.symm
  rw [LazySet.caseClosure, hsame, caseClosure_eq_caseFold (bounded_ofRanges hrs)]

/-- Whatever the case mappings, folding is the closure under the equivalence that they give: it adds
exactly the characters that are equivalent to a member, so it keeps inclusions and unions, and
neither a folded set nor its complement changes when it is folded again. The closure that patterns
are compiled with is folding by the mappings in use. -/
theorem caseFold_closes {m : CaseMappings} {fold : Char → Char} (h : m.Lawful fold unicode) :
    (∀ s : CodePointSet, s.Bounded →
      (∀ c, c ∈ s.caseFold m unicode ↔ c ∈ s ∨
        ∃ a b : Char, a.toNat ∈ s ∧ m.Equivalent fold unicode a b ∧ b.toNat = c) ∧
      Normal (s.caseFold m unicode).ranges ∧
      (∀ c ∈ s, c ∈ s.caseFold m unicode) ∧
      (s.caseFold m unicode).caseFold m unicode = s.caseFold m unicode ∧
      (s.caseFold m unicode).compl.caseFold m unicode = (s.caseFold m unicode).compl ∧
      ∀ t : CodePointSet, t.Bounded →
        ((∀ c ∈ s, c ∈ t) → ∀ c ∈ s.caseFold m unicode, c ∈ t.caseFold m unicode) ∧
        (s.union t).caseFold m unicode = (s.caseFold m unicode).union (t.caseFold m unicode)) ∧
    (∀ s : CodePointSet, s.Bounded → s.caseClosure unicode = s.caseFold .standard unicode) ∧
    ∀ rs : List CodePointRange, (∀ r ∈ rs, r.hi ≤ maxCodePoint) →
      (LazySet.ofRanges rs).caseClosure unicode =
        .ofSet ((ofRanges rs).caseFold .standard unicode) := by
  refine ⟨fun s hs => ⟨fun c => mem_caseFold h hs, (s.caseFold m unicode).normal,
    fun c hc => subset_caseFold h hs hc, caseFold_caseFold h hs, caseFold_compl h hs,
    fun t ht => ⟨fun hst => ?_, caseFold_union h hs ht⟩⟩, ?_, ?_⟩
  · exact caseFold_mono h hs ht hst
  · exact fun s hs => caseClosure_eq_caseFold hs
  · exact fun rs hrs => caseClosure_lazySet hrs

set_option maxRecDepth 100000 in
/-- The long s stands for an s with the unicode flag only. -/
theorem caseFold_closes_long_s :
    CaseMappings.standard.Lawful simpleForm true ∧ 0x73 ∈ (single 0x17F).caseFold .standard true ∧
      CaseMappings.standard.Lawful simpleForm false ∧
      0x73 ∉ (single 0x17F).caseFold .standard false := by
  have hs : (single 0x17F).Bounded := bounded_single (by decide)
  have hwith := ((caseFold_closes (CaseMappings.lawful_standard true)).1 _ hs).1 0x73
  have hwithout := ((caseFold_closes (CaseMappings.lawful_standard false)).1 _ hs).1 0x73
  refine ⟨CaseMappings.lawful_standard true, hwith.mpr (.inr ?_),
    CaseMappings.lawful_standard false, fun hmem => ?_⟩
  · refine ⟨Char.ofNat 0x17F, 's', mem_single.mpr rfl, ?_, rfl⟩
    exact CaseMappings.simpleForm_eq_iff.mpr (by decide +kernel)
  · rcases hwithout.mp hmem with hmem | ⟨a, b, ha, hab, hb⟩
    · exact absurd (mem_single.mp hmem) (by decide)
    · -- Each of them is its own class.
      have hforms := congrArg Char.toNat hab
      rw [CaseMappings.toNat_canonical_standard, CaseMappings.toNat_canonical_standard,
        mem_single.mp ha, hb] at hforms
      exact absurd hforms (by decide +kernel)

end CodePointSet

end PatternAutomata
