import PatternAutomata.BitSet
import PatternAutomata.CodePoint.Case
import PatternAutomata.Proofs.CodePoints

/-!
# Letters that differ only in case

Each of the two case relations is a table of letters with their forms. Letters have the same form
exactly if both are in the table with that form, so a set that is closed under the table does not
tell them apart. Nor does the complement of such a set, or a set of characters without case.
-/

namespace PatternAutomata

/-! ## Tables -/

/-- The set of the numbers in a list. -/
def bitsOf (ks : List Nat) : BitSet := ks.foldl BitSet.insert ∅

theorem contains_bitsOf {ks : List Nat} {k : Nat} : (bitsOf ks).contains k = true ↔ k ∈ ks := by
  have hfold : ∀ (ks : List Nat) (s : BitSet),
      (ks.foldl BitSet.insert s).contains k = true ↔ s.contains k = true ∨ k ∈ ks := by
    intro ks
    induction ks with
    | nil => simp
    | cons k' ks ih =>
      intro s
      rw [List.foldl_cons, ih, BitSet.contains_insert_iff, List.mem_cons, or_assoc]
  have hempty : (∅ : BitSet).contains k = false := BitSet.contains_empty k
  rw [bitsOf, hfold, hempty]
  simp

/-- No key is in the set, and none occurs twice. -/
def freshKeys (seen : BitSet) : List Nat → Bool
  | [] => true
  | k :: ks => !seen.contains k && freshKeys (seen.insert k) ks

theorem nodup_of_freshKeys {seen : BitSet} {ks : List Nat} (h : freshKeys seen ks = true) :
    ks.Nodup ∧ ∀ k ∈ ks, seen.contains k = false := by
  induction ks generalizing seen with
  | nil => exact ⟨.nil, by simp⟩
  | cons k ks ih =>
    rw [freshKeys, Bool.and_eq_true, Bool.not_eq_true'] at h
    obtain ⟨hnodup, hnot⟩ := ih h.2
    simp only [BitSet.contains_insert, Bool.or_eq_false_iff, decide_eq_false_iff_not] at hnot
    refine ⟨List.nodup_cons.mpr ⟨fun hk => (hnot k hk).2 rfl, hnodup⟩, fun k' hk' => ?_⟩
    rcases List.mem_cons.mp hk' with rfl | hk'
    · exact h.1
    · exact (hnot k' hk').1

/-- The form of a letter that occurs once. -/
theorem lookup_of_mem {forms : CaseForms} (h : (forms.map (·.1)).Nodup) {c f : Nat}
    (hc : (c, f) ∈ forms) : forms.lookup c = some f := by
  induction forms with
  | nil => cases hc
  | cons p forms ih =>
    obtain ⟨hnot, hnodup⟩ := List.nodup_cons.mp h
    obtain ⟨c', f'⟩ := p
    rw [List.lookup_cons]
    rcases List.mem_cons.mp hc with heq | hc
    · cases heq
      simp
    · have hne : c ≠ c' := fun heq => hnot (List.mem_map.mpr ⟨(c, f), hc, heq⟩)
      rw [beq_false_of_ne hne]
      exact ih hnodup hc

theorem mem_of_lookup {forms : CaseForms} {c f : Nat} (h : forms.lookup c = some f) :
    (c, f) ∈ forms := by
  induction forms with
  | nil => cases h
  | cons p forms ih =>
    obtain ⟨c', f'⟩ := p
    rw [List.lookup_cons] at h
    split at h
    · rename_i heq
      cases h
      rw [beq_iff_eq.mp heq]
      exact List.mem_cons_self
    · exact List.mem_cons_of_mem _ (ih h)

/-- The table has the letters that share their form with another one, and their forms. -/
structure CaseForms.Describes (forms : CaseForms) (form : Nat → Nat) : Prop where
  form_eq : ∀ c f, (c, f) ∈ forms → form c = f
  mem : ∀ c d, form c = form d → c ≠ d → (c, form c) ∈ forms

/-! ## Upper-case forms -/

theorem CaseRun.mem_members {r : CaseRun} {c : Nat} (h : r.covers c = true) : c ∈ r.members := by
  simp only [covers, Bool.and_eq_true, decide_eq_true_eq, beq_iff_eq] at h
  obtain ⟨⟨hfirst, hlast⟩, hstep⟩ := h
  refine List.mem_map.mpr ⟨(c - r.first) / r.step, List.mem_range.mpr ?_, ?_⟩
  · exact Nat.lt_succ_of_le (Nat.div_le_div_right (by omega))
  · have := Nat.div_add_mod' (c - r.first) r.step
    omega

theorem CaseRun.covers_of_mem {r : CaseRun} (hr : r.first ≤ r.last) {c : Nat}
    (h : c ∈ r.members) : r.covers c = true := by
  obtain ⟨i, hi, rfl⟩ := List.mem_map.mp h
  have hle := Nat.mul_le_mul_right r.step (Nat.le_of_lt_succ (List.mem_range.mp hi))
  have := Nat.div_mul_le_self (r.last - r.first) r.step
  simp only [covers, Nat.add_sub_cancel_left, Nat.mul_mod_left, Bool.and_eq_true, decide_eq_true_eq,
    beq_self_eq_true, and_true]
  omega

/-- The letters that are not their own upper-case forms, with these. -/
def raised : CaseForms := upperRuns.flatMap fun r => r.members.map fun c => (c, r.image c)

theorem upperForms_eq : upperForms = raised ++ raised.map fun p => (p.2, p.2) := rfl

set_option maxRecDepth 100000 in
theorem nodup_raised : (raised.map (·.1)).Nodup :=
  (nodup_of_freshKeys (show freshKeys ∅ (raised.map (·.1)) = true by decide +kernel)).1

set_option maxRecDepth 100000 in
/-- No upper-case form is itself raised. -/
theorem not_raised_form {c f : Nat} (h : (c, f) ∈ raised) (f' : Nat) : (f, f') ∉ raised := by
  have hkeys := (nodup_of_freshKeys (show freshKeys (bitsOf (raised.map (·.2))) (raised.map (·.1)) = true
    by decide +kernel)).2
  intro hf
  have hnot := hkeys f (List.mem_map.mpr ⟨(f, f'), hf, rfl⟩)
  rw [contains_bitsOf.mpr (List.mem_map.mpr ⟨(c, f), h, rfl⟩)] at hnot
  cases hnot

/-- What is raised is raised to its upper-case form, and what is not is its own. -/
theorem upperForm_eq (c : Nat) : upperForm c = (raised.lookup c).getD c := by
  unfold upperForm
  cases hr : upperRuns.find? (·.covers c) with
  | some r =>
    have hcovers := List.find?_some hr
    have hmem : (c, r.image c) ∈ raised := List.mem_flatMap.mpr ⟨r, List.mem_of_find?_eq_some hr,
      List.mem_map.mpr ⟨c, CaseRun.mem_members hcovers, rfl⟩⟩
    rw [lookup_of_mem nodup_raised hmem]
    rfl
  | none =>
    cases hlookup : raised.lookup c with
    | none => rfl
    | some f =>
      obtain ⟨r, hr', hf⟩ := List.mem_flatMap.mp (mem_of_lookup hlookup)
      obtain ⟨c', hc', heq⟩ := List.mem_map.mp hf
      cases heq
      have hrun : ∀ r ∈ upperRuns, r.first ≤ r.last := by decide +kernel
      exact absurd (CaseRun.covers_of_mem (hrun r hr') hc') (List.find?_eq_none.mp hr r hr')

theorem upperForms_describes : CaseForms.Describes upperForms upperForm where
  form_eq c f h := by
    rw [upperForms_eq] at h
    rw [upperForm_eq]
    rcases List.mem_append.mp h with h | h
    · rw [lookup_of_mem nodup_raised h]
      rfl
    · obtain ⟨p, hp, heq⟩ := List.mem_map.mp h
      cases heq
      cases hlookup : raised.lookup p.2 with
      | none => rfl
      | some f' => exact absurd (mem_of_lookup hlookup) (not_raised_form hp f')
  mem c d h hne := by
    rw [upperForm_eq, upperForm_eq] at h
    rw [upperForms_eq, upperForm_eq, List.mem_append]
    cases hc : raised.lookup c with
    | some f => exact .inl (mem_of_lookup hc)
    | none =>
      -- Then `c` is the form of `d`.
      cases hd : raised.lookup d with
      | none =>
        rw [hc, hd] at h
        exact absurd h hne
      | some f =>
        rw [hc, hd] at h
        obtain rfl : c = f := h
        exact .inr (List.mem_map.mpr ⟨(d, c), mem_of_lookup hd, rfl⟩)

/-! ## Simple folding -/

/-- The code point `c` stands for when case is ignored, with the unicode flag. -/
def foldForm (c : Nat) : Nat := (foldForms.lookup c).getD c

set_option maxRecDepth 100000 in
theorem nodup_foldForms : (foldForms.map (·.1)).Nodup :=
  (nodup_of_freshKeys (show freshKeys ∅ (foldForms.map (·.1)) = true by decide +kernel)).1

/-- Every form is in the table, as its own form. -/
theorem foldForms_form {c f : Nat} (h : (c, f) ∈ foldForms) : (f, f) ∈ foldForms := by
  rcases List.mem_append.mp h with h | h
  · obtain ⟨r, hr, h⟩ := List.mem_flatMap.mp h
    obtain ⟨c', hc', h⟩ := List.mem_flatMap.mp h
    have hform : (c', c') ∈ foldForms := List.mem_append_left _
      (List.mem_flatMap.mpr ⟨r, hr, List.mem_flatMap.mpr ⟨c', hc', by simp⟩⟩)
    simp only [List.mem_cons, Prod.mk.injEq, List.not_mem_nil, or_false] at h
    rcases h with ⟨-, rfl⟩ | ⟨-, rfl⟩
    · exact hform
    · exact hform
  · obtain ⟨cls, hcls, h⟩ := List.mem_flatMap.mp h
    obtain ⟨c', hc', heq⟩ := List.mem_map.mp h
    cases heq
    refine List.mem_append_right _ (List.mem_flatMap.mpr ⟨cls, hcls, List.mem_map.mpr ?_⟩)
    cases cls with
    | nil => cases hc'
    | cons head rest => exact ⟨head, by simp, rfl⟩

theorem foldForms_describes : CaseForms.Describes foldForms foldForm where
  form_eq c f h := by rw [foldForm, lookup_of_mem nodup_foldForms h, Option.getD_some]
  mem c d h hne := by
    unfold foldForm at h ⊢
    cases hc : foldForms.lookup c with
    | some f => exact mem_of_lookup hc
    | none =>
      -- Then `c` is the form of `d`.
      cases hd : foldForms.lookup d with
      | none =>
        rw [hc, hd] at h
        exact absurd h hne
      | some f =>
        rw [hc, hd] at h
        obtain rfl : c = f := h
        exact foldForms_form (mem_of_lookup hd)

/-! ## Sets that do not tell cases apart -/

/-- The characters differ in case at most. -/
def SameLetter (unicode : Bool) (c d : Char) : Prop :=
  if unicode then foldForm c.toNat = foldForm d.toNat else upperForm c.toNat = upperForm d.toNat

instance (unicode : Bool) (c d : Char) : Decidable (SameLetter unicode c d) :=
  inferInstanceAs (Decidable (if unicode then _ = _ else _ = _))

theorem SameLetter.symm {unicode : Bool} {c d : Char} (h : SameLetter unicode c d) :
    SameLetter unicode d c := by
  unfold SameLetter at h ⊢
  split at h
  · rename_i hu
    rw [if_pos hu]
    exact h.symm
  · rename_i hu
    rw [if_neg hu]
    exact h.symm

/-- Different characters that are the same letter are in the table. -/
theorem SameLetter.mem {unicode : Bool} {c d : Char} (h : SameLetter unicode c d) (hne : c ≠ d) :
    ∃ f, (c.toNat, f) ∈ (if unicode then foldForms else upperForms) := by
  have hne' : c.toNat ≠ d.toNat := fun heq => hne (Char.toNat_inj.mp heq)
  cases unicode with
  | true => exact ⟨_, foldForms_describes.mem _ _ h hne'⟩
  | false => exact ⟨_, upperForms_describes.mem _ _ h hne'⟩

namespace CodePointSet

variable {s t : CodePointSet} {unicode : Bool}

theorem mem_equivalents {forms : CaseForms} {c : Nat} :
    c ∈ s.equivalents forms ↔ ∃ f d, (c, f) ∈ forms ∧ (d, f) ∈ forms ∧ d ∈ s := by
  have hsingle : ∀ (l : List (Nat × Nat)) (g : Nat × Nat → Nat) (x : Nat),
      x ∈ ofRanges (l.map fun p => .single (g p)) ↔ ∃ p ∈ l, g p = x := fun _ _ _ =>
    mem_ofRanges.trans covers_map_single
  unfold equivalents
  rw [hsingle _ Prod.fst]
  constructor
  · rintro ⟨⟨c, f⟩, hp, rfl⟩
    obtain ⟨hmem, hhit⟩ := List.mem_filter.mp hp
    obtain ⟨⟨d, f'⟩, hq, rfl⟩ := (hsingle _ Prod.snd f).mp hhit
    obtain ⟨hmem', hd⟩ := List.mem_filter.mp hq
    exact ⟨f', d, hmem, hmem', hd⟩
  · rintro ⟨f, d, hmem, hmem', hd⟩
    refine ⟨(c, f), List.mem_filter.mpr ⟨hmem, ?_⟩, rfl⟩
    exact (hsingle _ Prod.snd f).mpr ⟨(d, f), List.mem_filter.mpr ⟨hmem', hd⟩, rfl⟩

/-- The characters of a range are kept, if the range does not end too late. -/
theorem mem_charParts {r : CodePointRange} {c : Char} (hr : r.hi ≤ maxCodePoint)
    (hc : r.lo ≤ c.toNat ∧ c.toNat ≤ r.hi) :
    ∃ part ∈ charParts r, part.lo ≤ c.toNat ∧ c.toNat ≤ part.hi := by
  have hvalid : c.toNat.isValidChar := c.valid
  unfold Nat.isValidChar at hvalid
  unfold charParts
  rcases hvalid with hlow | ⟨hhigh, -⟩
  · have hlo : r.lo ≤ min r.hi 0xD7FF := by omega
    rw [dif_pos hlo]
    exact ⟨_, List.mem_append_left _ (List.mem_singleton_self _), hc.1,
      Nat.le_min.mpr ⟨hc.2, Nat.le_of_lt_succ hlow⟩⟩
  · have hlo : max r.lo 0xE000 ≤ r.hi ∧ r.hi ≤ maxCodePoint := ⟨by omega, hr⟩
    rw [dif_pos hlo]
    exact ⟨_, List.mem_append_right _ (List.mem_singleton_self _), Nat.max_le.mpr ⟨hc.1, hhigh⟩, hc.2⟩

/-- The parts of a range have no members but its own. -/
theorem le_of_mem_charParts {r part : CodePointRange} (h : part ∈ charParts r) :
    r.lo ≤ part.lo ∧ part.hi ≤ r.hi := by
  rcases List.mem_append.mp h with h | h
  · split at h
    · obtain rfl := List.mem_singleton.mp h
      exact ⟨Nat.le_refl _, Nat.min_le_left ..⟩
    · cases h
  · split at h
    · obtain rfl := List.mem_singleton.mp h
      exact ⟨Nat.le_max_left .., Nat.le_refl _⟩
    · cases h

/-- Splitting ranges at the surrogates adds nothing. -/
theorem covers_of_charParts {rs : List CodePointRange} {c : Nat}
    (h : Covers (rs.flatMap charParts) c) : Covers rs c := by
  obtain ⟨r, hr, part, hpart, hlo, hhi⟩ := covers_flatMap.mp h
  obtain ⟨hlo', hhi'⟩ := le_of_mem_charParts hpart
  exact ⟨r, hr, Nat.le_trans hlo' hlo, Nat.le_trans hhi hhi'⟩

/-- Splitting ranges at the surrogates keeps the characters. -/
theorem covers_charParts {rs : List CodePointRange} (hrs : ∀ r ∈ rs, r.hi ≤ maxCodePoint)
    {c : Char} :
    Covers (rs.flatMap charParts) c.toNat ↔ Covers rs c.toNat := by
  refine ⟨covers_of_charParts, fun ⟨r, hr, hc⟩ => ?_⟩
  exact covers_flatMap.mpr ⟨r, hr, mem_charParts (hrs r hr) hc⟩

/-- Adding the equivalents of the members adds what has the form of a member, if `t` has the
members that are in the table. -/
theorem mem_union_equivalents {forms : CaseForms} {form : Nat → Nat} {c : Nat}
    (h : forms.Describes form) (hts : ∀ d ∈ t, d ∈ s) (hst : ∀ d f, (d, f) ∈ forms → d ∈ s → d ∈ t) :
    c ∈ s.union (t.equivalents forms) ↔ ∃ d ∈ s, form c = form d := by
  rw [mem_union, mem_equivalents]
  constructor
  · rintro (hc | ⟨f, d, hcf, hdf, hd⟩)
    · exact ⟨c, hc, rfl⟩
    · exact ⟨d, hts d hd, (h.form_eq c f hcf).trans (h.form_eq d f hdf).symm⟩
  · rintro ⟨d, hd, heq⟩
    by_cases hne : c = d
    · exact .inl (hne ▸ hd)
    · have hdf := h.mem d c heq.symm (Ne.symm hne)
      exact .inr ⟨form c, d, h.mem c d heq hne, heq ▸ hdf, hst d _ hdf hd⟩

set_option maxRecDepth 100000 in
/-- Letters are characters. -/
theorem valid_of_mem_foldForms {c f : Nat} (h : (c, f) ∈ foldForms) :
    c < 0xD800 ∨ 0xDFFF < c ∧ c < 0x110000 := by
  have hall : ∀ p ∈ foldForms, p.1 < 0xD800 ∨ 0xDFFF < p.1 ∧ p.1 < 0x110000 := by decide +kernel
  exact hall _ h

theorem mem_caseClosure {c : Nat} (hs : s.Bounded) : c ∈ s.caseClosure unicode ↔
    ∃ d ∈ s, if unicode then foldForm c = foldForm d else upperForm c = upperForm d := by
  cases unicode with
  | false => exact mem_union_equivalents upperForms_describes (fun _ => id) fun _ _ _ => id
  | true =>
    refine mem_union_equivalents foldForms_describes (fun d hd => ?_) fun d f hf hd => ?_
    · exact mem_iff.mpr (covers_of_charParts (mem_ofRanges.mp hd))
    · exact mem_ofRanges.mpr ((covers_charParts (bounded_iff.mp hs)
        (c := Char.ofNatAux d (valid_of_mem_foldForms hf))).mpr (mem_iff.mp hd))

set_option maxRecDepth 100000 in
theorem le_of_mem_upperForms {c f : Nat} (h : (c, f) ∈ upperForms) : c ≤ maxCodePoint := by
  have hall : ∀ p ∈ upperForms, p.1 ≤ maxCodePoint := by decide +kernel
  exact hall _ h

theorem bounded_caseClosure (hs : s.Bounded) : (s.caseClosure unicode).Bounded := by
  intro c hc
  rcases mem_union.mp hc with hc | hc
  · exact hs c hc
  · cases unicode with
    | false =>
      obtain ⟨f, d, hf, -⟩ := mem_equivalents.mp hc
      exact le_of_mem_upperForms hf
    | true =>
      obtain ⟨f, d, hf, -⟩ := mem_equivalents.mp hc
      have hvalid := valid_of_mem_foldForms hf
      show c ≤ 0x10FFFF
      omega

theorem blind_caseClosure (hs : s.Bounded) : (s.caseClosure unicode).Blind (SameLetter unicode) := by
  have hone : ∀ c d : Char, SameLetter unicode c d → c.toNat ∈ s.caseClosure unicode →
      d.toNat ∈ s.caseClosure unicode := by
    intro c d hcd hc
    obtain ⟨e, he, hform⟩ := (mem_caseClosure hs).mp hc
    refine (mem_caseClosure hs).mpr ⟨e, he, ?_⟩
    cases unicode with
    | false => exact hcd.symm.trans hform
    | true => exact hcd.symm.trans hform
  intro c d hcd
  exact Bool.eq_iff_iff.mpr ⟨hone c d hcd, hone d c hcd.symm⟩

/-- A set of characters without case has no two characters that are the same letter. -/
theorem blind_of_caseless
    (hs : ∀ c f, (c, f) ∈ (if unicode then foldForms else upperForms) → c ∉ s) :
    s.Blind (SameLetter unicode) := by
  intro c d hcd
  by_cases hne : c = d
  · rw [hne]
  obtain ⟨f, hc⟩ := hcd.mem hne
  obtain ⟨f', hd⟩ := hcd.symm.mem (Ne.symm hne)
  rw [Bool.eq_false_iff.mpr (hs _ _ hc), Bool.eq_false_iff.mpr (hs _ _ hd)]

set_option maxRecDepth 100000 in
theorem blind_lineTerminators : lineTerminators.Blind (SameLetter unicode) := by
  have hcaseless : ∀ p ∈ foldForms ++ upperForms,
      (bitsOf [0xA, 0xD, 0x2028, 0x2029]).contains p.1 = false := by decide +kernel
  refine blind_of_caseless fun c f hc hmem => ?_
  have hnot : (bitsOf [0xA, 0xD, 0x2028, 0x2029]).contains c = false := by
    split at hc
    · exact hcaseless _ (List.mem_append_left _ hc)
    · exact hcaseless _ (List.mem_append_right _ hc)
  have hline : c ∈ [0xA, 0xD, 0x2028, 0x2029] := by
    obtain ⟨r, hr, hlo, hhi⟩ := mem_ofRanges.mp hmem
    have hends : ∀ r ∈ [CodePointRange.single 0x0A, .single 0x0D, .between 0x2028 0x2029],
        (r.lo, r.hi) ∈ [(0xA, 0xA), (0xD, 0xD), (0x2028, 0x2029)] := by decide
    have := hends r hr
    simp only [List.mem_cons, Prod.mk.injEq, List.not_mem_nil, or_false] at this ⊢
    omega
  rw [contains_bitsOf.mpr hline] at hnot
  cases hnot

theorem blind_dot (dotAll : Bool) : (dot dotAll).Blind (SameLetter unicode) := by
  unfold dot
  split
  · exact .full
  · exact blind_lineTerminators.compl

set_option maxRecDepth 100000 in
/-- Without the unicode flag no word character is the same letter as another character. -/
theorem blind_wordChars : wordChars.Blind (SameLetter false) := by
  have hforms : ∀ p ∈ upperForms, 128 ≤ p.1 ∧ 128 ≤ p.2 ∨
      wordChars.contains p.1 = wordChars.contains p.2 := by decide +kernel
  have hascii : ∀ c, 128 ≤ c → wordChars.contains c = false := by
    intro c hc
    rw [Bool.eq_false_iff]
    intro hmem
    obtain ⟨r, hr, -, hhi⟩ := mem_ofRanges.mp hmem
    have hlast : ∀ r ∈ [CodePointRange.between 0x30 0x39, .between 0x41 0x5A, .single 0x5F,
        .between 0x61 0x7A], r.hi < 128 := by decide
    have := hlast r hr
    omega
  have hform : ∀ c f, (c, f) ∈ upperForms → wordChars.contains c = wordChars.contains f := by
    intro c f hp
    rcases hforms _ hp with ⟨hc, hf⟩ | heq
    · rw [hascii c hc, hascii f hf]
    · exact heq
  intro c d hcd
  by_cases hne : c = d
  · rw [hne]
  obtain ⟨f, hc⟩ := hcd.mem hne
  obtain ⟨f', hd⟩ := hcd.symm.mem (Ne.symm hne)
  have hf : f = f' := (upperForms_describes.form_eq _ _ hc).symm.trans
    (Eq.trans hcd (upperForms_describes.form_eq _ _ hd))
  rw [hform _ _ hc, hform _ _ hd, hf]

end CodePointSet

end PatternAutomata
