import PatternAutomata.Proofs.Pattern.Atoms
import PatternAutomata.Proofs.Pattern.Consuming
import PatternAutomata.Proofs.Pattern.Scanning

/-!
# What references become

A group is referred to by its number, or by its name after `\k`. Scans for capture groups find nothing in
atoms, and of references by name they find where these stand. What such a reference has become is told
by `Resolved`. All references are to capture groups of the pattern, and none is to the whole of it.
-/

namespace PatternAutomata.Pattern

variable {s : Settings} {start n : Nat} {c : Char} {cur after : Cursor} {a : Atom} {u : List Char}

/-! ## References -/

/-- What the text `u`, which begins with `\k`, has become. Where groups can be referred to by name, the
name of one follows in angle brackets, and the node refers to that group. Elsewhere the letter stands for
itself. -/
def Resolved (s : Settings) (u : List Char) (k : NodeKind) : Prop :=
  if s.unicode = true ∨ s.hasNamedGroups = true then
    ∃ name rest n, u = '\\' :: 'k' :: '<' :: (name ++ '>' :: rest) ∧ '>' ∉ name ∧
      k = .backReference n ∧ s.declared[n]? = some (some (String.ofList name))
  else k = (literal s 'k'.toNat).kind

/-- Scans find a reference by name at `u` and go on at `v`, and the kind is what it stands for. -/
structure Refers (s : Settings) (u v : List Char) (k : NodeKind) : Prop where
  declared : declaredFrom false u = declaredFrom false v
  references : referencesFrom false u = u :: referencesFrom false v
  length : v.length < u.length
  resolved : Resolved s u k

theorem refers_of_skips {v : List Char} {k : NodeKind} (hskip : Skips 0 false u false v)
    (hk : Resolved s ('\\' :: 'k' :: u) k) : Refers s ('\\' :: 'k' :: u) v k where
  declared := hskip.declared
  references := congrArg (('\\' :: 'k' :: u) :: ·) hskip.references
  length := by
    have := hskip.length
    simp only [List.length_cons]
    omega
  resolved := hk

theorem refers_readsName (hnames : s.unicode = true ∨ s.hasNamedGroups = true)
    (h : ReadsName s cur a after) : Refers s ('\\' :: 'k' :: cur.rest) after.rest a.kind := by
  cases h with
  | @group _ _ _ n hopen hname hn =>
    obtain ⟨d, ds, rfl, hrest, -, hpart⟩ := rest_of_groupName hname
    have hquiet : ∀ e ∈ d :: ds, Quiet e := fun e he => quiet_of_isNamePart (hpart e he)
    have htext : cur.rest = '<' :: (d :: ds ++ '>' :: after.rest) := by
      rw [rest_of_skip? hopen, hrest]
      rfl
    have hskip : Skips 0 false cur.rest false after.rest := by
      rw [htext]
      exact (((skips_quiet (by decide) false _).trans (skips_append hquiet false _)).trans
        (skips_quiet (by decide) false after.rest)).mono (Nat.zero_le _)
    refine refers_of_skips hskip ?_
    rw [Resolved, if_pos hnames]
    refine ⟨d :: ds, after.rest, n, by rw [htext], fun hmem => ?_, rfl, ?_⟩
    · cases isNamePart_close.symm.trans (hpart '>' hmem)
    · obtain ⟨hlt, heq, -⟩ := List.findIdx?_eq_some_iff_getElem.mp hn
      rw [List.getElem?_eq_getElem hlt, beq_iff_eq.mp heq]

/-- Where groups cannot be referred to by name, the letter is escaped for no reason. -/
theorem refers_letter {v : Nat} (hnames : ¬(s.unicode = true ∨ s.hasNamedGroups = true))
    (hrest : cur.rest = 'k' :: u) (h : characterEscape s.unicode false start cur = .ok (v, after)) :
    Refers s ('\\' :: cur.rest) after.rest (literal s v).kind := by
  have hunicode : s.unicode = false := Bool.eq_false_iff.mpr fun hu => hnames (.inl hu)
  have hread : characterEscape s.unicode false start cur = .ok ('k'.toNat, cur.drop 1) := by
    rw [hunicode, characterEscape, Cursor.peek?, hrest]
    rfl
  obtain ⟨rfl, rfl⟩ := Prod.mk.inj (Except.ok.inj (hread.symm.trans h))
  rw [rest_drop_one hrest, hrest]
  refine refers_of_skips (.refl false u) ?_
  rw [Resolved, if_neg hnames]

theorem skips_readsNumber (hrest : cur.rest = c :: u) (hc : c.isDigit = true)
    (h : ReadsNumber s c cur a after) : Skips 1 false ('\\' :: cur.rest) false after.rest := by
  have hdigit : Cursor.isDigit 10 c = true := by
    rw [Cursor.isDigit, digitValue?_of_isDigit hc]
    rfl
  have hquiet : Quiet c := quiet_of_isDigit hdigit
  have hne : c ≠ 'k' := by
    rintro rfl
    cases hc
  have hback : Skips 1 false ('\\' :: cur.rest) false cur.rest := by
    rw [hrest]
    exact skips_backslash hquiet (.inr hne) u
  cases h with
  | group hread hn => exact (hback.trans (skips_numeral? hread false)).mono (by decide)
  | octal hc => exact hback.trans (skips_octalFrom 3 0 false cur)
  | digit => exact (hback.trans (skips_drop_one hrest hquiet false)).mono (by decide)

theorem scans_readsEscape (hs : NamesAreWords s.properties) (h : ReadsEscape s start cur a after) :
    Skips 1 false ('\\' :: cur.rest) false after.rest ∨
      Refers s ('\\' :: cur.rest) after.rest a.kind := by
  have hescape : ∀ {e}, cur.peek? = some e → e ≠ 'k' →
      Skips 2 false ('\\' :: cur.rest) false (cur.drop 1).rest := by
    intro e hpeek hne
    obtain ⟨u, hrest⟩ := List.head?_eq_some_iff.mp hpeek
    exact skips_escape_drop_one hrest (.inr hne)
  cases h with
  | wordBoundary hpeek => exact .inl ((hescape hpeek (by decide)).mono (by decide))
  | notWordBoundary hpeek => exact .inl ((hescape hpeek (by decide)).mono (by decide))
  | number hpeek hzero hc h =>
    obtain ⟨u, hrest⟩ := List.head?_eq_some_iff.mp hpeek
    exact .inl (skips_readsNumber hrest hc h)
  | name hpeek hnames h =>
    obtain ⟨u, hrest⟩ := List.head?_eq_some_iff.mp hpeek
    have hrefers := refers_readsName hnames h
    rw [rest_drop_one hrest, ← hrest] at hrefers
    exact .inr hrefers
  | property hpeek hc hproperty =>
    have hskip := hescape hpeek (by rcases hc with rfl | rfl <;> decide)
    exact .inl ((hskip.trans (skips_property hs hproperty false)).mono (by decide))
  | charClass hpeek hset =>
    refine .inl ((hescape hpeek ?_).mono (by decide))
    rintro rfl
    cases hset
  | char hnames hchar =>
    by_cases hk : cur.peek? = some 'k'
    · obtain ⟨u, hrest⟩ := List.head?_eq_some_iff.mp hk
      exact .inr (refers_letter (hnames hk) hrest hchar)
    · exact .inl (skips_characterEscape (.inr hk) hchar)

/-- Scans find nothing in an atom, unless it is a reference by name. -/
theorem scans_atom (hs : NamesAreWords s.properties) (hrest : cur.rest = c :: u) (hc : c ≠ '(')
    (h : atom s c cur = .ok (a, after)) :
    Skips 1 false cur.rest false after.rest ∨ Refers s cur.rest after.rest a.kind := by
  have hafter := rest_drop_one hrest
  have hquiet : Quiet c → Skips 1 false cur.rest false (cur.drop 1).rest := fun hc =>
    skips_drop_one hrest hc false
  cases atom_eq_ok h with
  | atStart hc =>
    subst hc
    exact .inl (hquiet (by decide))
  | atEnd hc =>
    subst hc
    exact .inl (hquiet (by decide))
  | escape hc hread =>
    subst hc
    have hscans := scans_readsEscape hs hread
    rwa [hafter, ← hrest] at hscans
  | dot hc =>
    subst hc
    exact .inl (hquiet (by decide))
  | charClass hc hclass =>
    subst hc
    have hskip := skips_charClass hs hclass
    rw [hafter] at hskip
    rw [hrest]
    exact .inl ((skips_open false u).trans hskip)
  | char hescape hclass =>
    by_cases hclose : c = ']'
    · subst hclose
      rw [hafter, hrest]
      exact .inl (skips_close false u)
    · refine .inl (hquiet ?_)
      simp only [Quiet, List.mem_cons, List.not_mem_nil, or_false, not_or]
      exact ⟨hc, hclass, hescape, hclose⟩

/-! ## Numbers of groups -/

/-- A number that does not begin with zero is not zero. -/
theorem numeral?_pos {d : Nat} (hrest : cur.rest = c :: u) (hd : Cursor.digitValue? 10 c = some d)
    (hpos : 0 < d) (h : cur.numeral? 10 = some (n, after)) : 0 < n := by
  have hfold : ∀ (digits : List Char) (m : Nat), 0 < m → 0 < digits.foldl
      (fun n c => min (n * 10 + (Cursor.digitValue? 10 c).getD 0) Cursor.maxNumber) m := by
    intro digits
    induction digits with
    | nil => exact fun _ hm => hm
    | cons e digits ih =>
      intro m hm
      exact ih _ (Nat.lt_min.mpr ⟨by omega, by decide⟩)
  have htake : (cur.takeWhile (Cursor.isDigit 10)).1 = c :: u.takeWhile (Cursor.isDigit 10) := by
    rw [Cursor.takeWhile, hrest]
    exact List.takeWhile_cons_of_pos (by rw [Cursor.isDigit, hd]; rfl)
  unfold Cursor.numeral? at h
  split at h
  · cases h
  · rename_i digits after hdigits
    rw [hdigits] at htake
    cases htake
    cases h
    rw [Cursor.number, List.foldl_cons, hd]
    exact hfold _ _ (Nat.lt_min.mpr ⟨by simpa using hpos, by decide⟩)

theorem digitValue?_pos (hc : c.isDigit = true) (hne : c ≠ '0') :
    ∃ d, Cursor.digitValue? 10 c = some d ∧ 0 < d := by
  refine ⟨_, digitValue?_of_isDigit hc, Nat.sub_pos_of_lt ?_⟩
  rw [Char.isDigit, Bool.and_eq_true, decide_eq_true_eq, decide_eq_true_eq] at hc
  exact Nat.lt_of_le_of_ne hc.1 fun heq => hne (Char.toNat_inj.mp heq.symm)

/-- If the node refers to a group, that is one of `count` groups, and not the whole pattern. -/
def RefersBelow (count : Nat) (k : NodeKind) : Prop :=
  ∀ n, k = .backReference n → 1 ≤ n ∧ n < count

theorem refersBelow_readsName (hzero : s.declared[0]? = some none) (h : ReadsName s cur a after) :
    RefersBelow s.declared.length a.kind := by
  cases h with
  | group hopen hname hm =>
    rintro n ⟨⟩
    obtain ⟨hlt, heq, -⟩ := List.findIdx?_eq_some_iff_getElem.mp hm
    refine ⟨Nat.pos_of_ne_zero ?_, hlt⟩
    rintro rfl
    rw [List.getElem?_eq_getElem hlt, beq_iff_eq.mp heq] at hzero
    cases hzero

theorem refersBelow_readsNumber (hrest : cur.rest = c :: u) (hc : c.isDigit = true) (hne : c ≠ '0')
    (h : ReadsNumber s c cur a after) : RefersBelow s.declared.length a.kind := by
  cases h with
  | group hread hlt =>
    obtain ⟨d, hd, hpos⟩ := digitValue?_pos hc hne
    rintro n ⟨⟩
    exact ⟨numeral?_pos hrest hd hpos hread, hlt⟩
  | octal hc => nofun
  | digit => nofun

theorem refersBelow_atom (hzero : s.declared[0]? = some none) (h : atom s c cur = .ok (a, after)) :
    RefersBelow s.declared.length a.kind := by
  cases atom_eq_ok h with
  | escape hc h =>
    cases h with
    | number hpeek hne hdigit h =>
      obtain ⟨u, hrest⟩ := List.head?_eq_some_iff.mp hpeek
      exact refersBelow_readsNumber hrest hdigit hne h
    | name hpeek hnames h => exact refersBelow_readsName hzero h
    | _ => nofun
  | _ => nofun

end PatternAutomata.Pattern
