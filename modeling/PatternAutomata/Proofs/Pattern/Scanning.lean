import PatternAutomata.Pattern.Reader
import PatternAutomata.Proofs.Pattern.Names
import PatternAutomata.Proofs.Results
import Mathlib.Data.List.TakeWhile

/-!
# Scanning alongside the reader

Before a pattern is read, `declaredFrom` scans it for capture groups. The scan knows of escapes only
that they have two characters at least, and of classes only where they end. `Skips` says that a scan
finds nothing between two places of a pattern. The parts that the reader takes, from digits to whole
classes, are skipped one after the other, and so are atoms other than references by name.
-/

namespace PatternAutomata.Pattern

/-- The places where `\k` stands outside of brackets, each with the text from there on; `inClass` holds
between brackets. -/
def referencesFrom (inClass : Bool) : List Char → List (List Char)
  | [] => []
  | '\\' :: c :: rest =>
    if c = 'k' ∧ inClass = false then ('\\' :: c :: rest) :: referencesFrom inClass rest
    else referencesFrom inClass rest
  | '[' :: rest => referencesFrom true rest
  | ']' :: rest => referencesFrom false rest
  | _ :: rest => referencesFrom inClass rest

/-- Scans find the same from the second place on as from the first one on, and there are at least `n`
characters between the places. -/
structure Skips (n : Nat) (inClass : Bool) (u : List Char) (inClass' : Bool) (v : List Char) : Prop where
  declared : declaredFrom inClass u = declaredFrom inClass' v
  references : referencesFrom inClass u = referencesFrom inClass' v
  length : v.length + n ≤ u.length

namespace Skips

variable {m n : Nat} {b b' b'' : Bool} {u v w : List Char}

theorem refl (b : Bool) (u : List Char) : Skips 0 b u b u := ⟨rfl, rfl, Nat.le_refl _⟩

theorem trans (h : Skips m b u b' v) (h' : Skips n b' v b'' w) : Skips (m + n) b u b'' w where
  declared := h.declared.trans h'.declared
  references := h.references.trans h'.references
  length := by
    have := h.length
    have := h'.length
    omega

theorem mono (h : Skips n b u b' v) (hle : m ≤ n) : Skips m b u b' v :=
  ⟨h.declared, h.references, Nat.le_trans (Nat.add_le_add_left hle _) h.length⟩

end Skips

/-- The character means nothing to a scan. -/
def Quiet (c : Char) : Prop := c ∉ ['(', '[', '\\', ']']

instance (c : Char) : Decidable (Quiet c) := inferInstanceAs (Decidable (c ∉ _))

variable {b : Bool} {c : Char} {u v : List Char}

theorem skips_quiet (hc : Quiet c) (b : Bool) (u : List Char) : Skips 1 b (c :: u) b u := by
  simp only [Quiet, List.mem_cons, List.not_mem_nil, or_false, not_or] at hc
  obtain ⟨hopen, hleft, hback, hright⟩ := hc
  refine ⟨?_, ?_, Nat.le_refl _⟩
  · rw [declaredFrom]
    all_goals simp [*]
  · rw [referencesFrom]
    all_goals simp [*]

theorem skips_escape (h : b = true ∨ c ≠ 'k') (u : List Char) : Skips 2 b ('\\' :: c :: u) b u := by
  refine ⟨by rw [declaredFrom], ?_, Nat.le_refl _⟩
  rw [referencesFrom, if_neg]
  rintro ⟨rfl, rfl⟩
  simp at h

theorem skips_open (b : Bool) (u : List Char) : Skips 1 b ('[' :: u) true u :=
  ⟨by rw [declaredFrom], by rw [referencesFrom], Nat.le_refl _⟩

theorem skips_close (b : Bool) (u : List Char) : Skips 1 b (']' :: u) false u :=
  ⟨by rw [declaredFrom], by rw [referencesFrom], Nat.le_refl _⟩

theorem skips_append {cs : List Char} (hcs : ∀ c ∈ cs, Quiet c) (b : Bool) (u : List Char) :
    Skips cs.length b (cs ++ u) b u := by
  induction cs with
  | nil => exact .refl b u
  | cons c cs ih =>
    rw [List.length_cons, Nat.add_comm]
    exact (skips_quiet (hcs c List.mem_cons_self) b (cs ++ u)).trans
      (ih fun d hd => hcs d (List.mem_cons_of_mem c hd))

/-- A backslash before a character that is skipped anyway. -/
theorem skips_backslash (hc : Quiet c) (h : b = true ∨ c ≠ 'k') (u : List Char) :
    Skips 1 b ('\\' :: c :: u) b (c :: u) where
  declared := (skips_escape h u).declared.trans (skips_quiet hc b u).declared.symm
  references := (skips_escape h u).references.trans (skips_quiet hc b u).references.symm
  length := Nat.le_refl _

/-- Between brackets parentheses and brackets that open mean nothing. -/
theorem skips_between (hback : c ≠ '\\') (hclose : c ≠ ']') (u : List Char) :
    Skips 1 true (c :: u) true u := by
  by_cases hleft : c = '['
  · subst hleft
    exact skips_open true u
  · by_cases hopen : c = '('
    · subst hopen
      exact ⟨rfl, rfl, Nat.le_refl _⟩
    · refine skips_quiet ?_ true u
      simp only [Quiet, List.mem_cons, List.not_mem_nil, or_false, not_or]
      exact ⟨hopen, hleft, hback, hclose⟩

theorem quiet_of_word (h : (c.isAlphanum || c == '_') = true) : Quiet c := by
  intro hc
  simp only [List.mem_cons, List.not_mem_nil, or_false] at hc
  rcases hc with rfl | rfl | rfl | rfl
  all_goals revert h; decide

/-! ## Cursors -/

section Cursors

variable {base n value : Nat} {text : String} {cur after : Cursor}

theorem rest_drop_one (hrest : cur.rest = c :: u) : (cur.drop 1).rest = u := by
  rw [Cursor.drop, hrest]
  rfl

theorem skips_drop_one (hrest : cur.rest = c :: u) (hc : Quiet c) (b : Bool) :
    Skips 1 b cur.rest b (cur.drop 1).rest := by
  rw [rest_drop_one hrest, hrest]
  exact skips_quiet hc b u

theorem skips_escape_drop_one (hrest : cur.rest = c :: u) (h : b = true ∨ c ≠ 'k') :
    Skips 2 b ('\\' :: cur.rest) b (cur.drop 1).rest := by
  rw [rest_drop_one hrest, hrest]
  exact skips_escape h u

theorem rest_of_skip? (h : cur.skip? text = some after) : cur.rest = text.toList ++ after.rest := by
  unfold Cursor.skip? at h
  split at h
  · rename_i hpre
    cases h
    obtain ⟨tail, htail⟩ := List.isPrefixOf_iff_prefix.mp hpre
    rw [Cursor.drop, ← htail, ← String.length_toList, List.drop_left]
  · cases h

theorem rest_takeWhile (cur : Cursor) (p : Char → Bool) :
    cur.rest = (cur.takeWhile p).1 ++ (cur.takeWhile p).2.rest := by
  have hdrop : cur.rest.drop (cur.rest.takeWhile p).length = cur.rest.dropWhile p :=
    (congrArg _ List.takeWhile_append_dropWhile.symm).trans List.drop_left
  exact (List.takeWhile_append_dropWhile.symm).trans (congrArg _ hdrop.symm)

/-- The texts that are skipped are single characters. -/
theorem skips_skip? (h : cur.skip? text = some after) (htext : text.toList = [c]) (hc : Quiet c)
    (b : Bool) : Skips 1 b cur.rest b after.rest := by
  rw [rest_of_skip? h, htext]
  exact skips_quiet hc b after.rest

theorem skips_takeWhile {p : Char → Bool} (hp : ∀ c, p c = true → Quiet c) (b : Bool)
    (cur : Cursor) : Skips (cur.takeWhile p).1.length b cur.rest b (cur.takeWhile p).2.rest := by
  have hquiet : ∀ c ∈ (cur.takeWhile p).1, Quiet c := fun c hc => hp c (List.mem_takeWhile_imp hc)
  have hskip := skips_append hquiet b (cur.takeWhile p).2.rest
  rwa [← rest_takeWhile] at hskip

/-! ### Numbers -/

theorem quiet_of_isDigit (h : Cursor.isDigit base c = true) : Quiet c := by
  intro hc
  simp only [List.mem_cons, List.not_mem_nil, or_false] at hc
  rcases hc with rfl | rfl | rfl | rfl
  all_goals simp [Cursor.isDigit, Cursor.digitValue?] at h

theorem skips_numeral? (h : cur.numeral? base = some (value, after)) (b : Bool) :
    Skips 1 b cur.rest b after.rest := by
  have hskip := skips_takeWhile (p := Cursor.isDigit base) (fun _ => quiet_of_isDigit) b cur
  unfold Cursor.numeral? at h
  split at h
  · cases h
  · rename_i hnil htake
    cases h
    rw [htake] at hskip
    refine hskip.mono (Nat.pos_of_ne_zero fun hlength => ?_)
    exact hnil (List.length_eq_zero_iff.mp hlength)

theorem skips_hex? (h : cur.hex? n = some (value, after)) (b : Bool) :
    Skips n b cur.rest b after.rest := by
  unfold Cursor.hex? at h
  simp only at h
  split at h
  · rename_i hdigits
    cases h
    obtain ⟨hlength, hall⟩ := hdigits
    have hskip := skips_append (fun c hc => quiet_of_isDigit (List.all_eq_true.mp hall c hc)) b
      (cur.rest.drop n)
    rwa [List.take_append_drop, hlength] at hskip
  · cases h

theorem skips_octalFrom (n value : Nat) (b : Bool) (cur : Cursor) :
    Skips 0 b cur.rest b (Cursor.octalFrom n value cur).2.rest := by
  induction n generalizing value cur with
  | zero => exact .refl b _
  | succ n ih =>
    unfold Cursor.octalFrom
    split
    · rename_i d hd
      split
      · obtain ⟨c, hc, hvalue⟩ := Option.bind_eq_some_iff.mp hd
        obtain ⟨u, hrest⟩ := List.head?_eq_some_iff.mp hc
        have hdigit : Cursor.isDigit 8 c = true := by
          rw [Cursor.isDigit, hvalue]
          rfl
        exact ((skips_drop_one hrest (quiet_of_isDigit hdigit) b).trans (ih _ _)).mono (Nat.zero_le _)
      · exact .refl b _
    · exact .refl b _

end Cursors

/-! ## Escapes -/

section Escapes

variable {unicode inClass : Bool} {start value : Nat} {cur after : Cursor}

theorem skips_bracedCodePoint? (h : bracedCodePoint? cur = some (value, after)) (b : Bool) :
    Skips 0 b cur.rest b after.rest := by
  simp only [bracedCodePoint?, Option.bind_eq_bind, Option.bind_eq_some_iff] at h
  obtain ⟨opened, hopen, ⟨v, digits⟩, hdigits, closed, hclose, h⟩ := h
  split at h
  · cases h
    exact (((skips_skip? hopen rfl (by decide) b).trans (skips_numeral? hdigits b)).trans
      (skips_skip? hclose rfl (by decide) b)).mono (Nat.zero_le _)
  · cases h

theorem skips_trailEscape? (h : trailEscape? cur = some (value, after)) (b : Bool) :
    Skips 0 b cur.rest b after.rest := by
  simp only [trailEscape?, Option.bind_eq_bind, Option.bind_eq_some_iff] at h
  obtain ⟨opened, hopen, ⟨v, digits⟩, hdigits, h⟩ := h
  have htext : "\\u".toList = ['\\', 'u'] := rfl
  split at h
  · cases h
    rw [rest_of_skip? hopen, htext]
    exact ((skips_escape (.inr (by decide)) opened.rest).trans (skips_hex? hdigits b)).mono
      (Nat.zero_le _)
  · cases h

theorem skips_unicodeEscape? (h : unicodeEscape? unicode cur = some (value, after)) (b : Bool) :
    Skips 0 b cur.rest b after.rest := by
  unfold unicodeEscape? at h
  split at h
  · exact skips_bracedCodePoint? h b
  · split at h
    · cases h
    · rename_i lead digits hlead
      have hdigits := (skips_hex? hlead b).mono (Nat.zero_le _)
      split at h
      · rename_i trail found htrail
        split at h
        · obtain ⟨-, rfl⟩ := Prod.mk.inj (Option.some.inj h)
          exact hdigits.trans (skips_trailEscape? htrail b)
        · cases h
          exact hdigits
      · cases h
        exact hdigits

theorem skips_controlEscape {u : List Char} (hrest : cur.rest = 'c' :: u)
    (h : controlEscape unicode inClass start cur = .ok (value, after)) (b : Bool) :
    Skips 1 b ('\\' :: cur.rest) b after.rest := by
  unfold controlEscape at h
  simp only at h
  split at h
  · rename_i l hl
    cases h
    obtain ⟨hpeek, hcontrol⟩ := Option.filter_eq_some_iff.mp hl
    have hu := rest_drop_one hrest
    obtain ⟨w, hw⟩ := List.head?_eq_some_iff.mp hpeek
    have hafter : (cur.drop 2).rest = w := by rw [Cursor.drop, hrest, ← hu, hw]; rfl
    have hword : (l.isAlphanum || l == '_') = true := by
      simp only [show l.isAlphanum = (l.isAlpha || l.isDigit) from rfl, Bool.or_eq_true,
        Bool.and_eq_true] at hcontrol ⊢
      rcases hcontrol with h | ⟨-, h | h⟩
      · exact .inl (.inl h)
      · exact .inl (.inr h)
      · exact .inr h
    rw [hafter, hrest, ← hu, hw]
    exact ((skips_escape (.inr (by decide)) _).trans (skips_quiet (quiet_of_word hword) b w)).mono
      (by decide)
  · split at h
    · cases h
    · cases h
      rw [hrest]
      exact skips_backslash (by decide) (.inr (by decide)) u

/-- An escape is skipped together with its backslash. Outside of brackets it must not be that of a
reference by name. -/
theorem skips_characterEscape {b : Bool} (hk : b = true ∨ cur.peek? ≠ some 'k')
    (h : characterEscape unicode inClass start cur = .ok (value, after)) :
    Skips 1 b ('\\' :: cur.rest) b after.rest := by
  unfold characterEscape at h
  split at h
  · cases h
  · rename_i c hpeek
    obtain ⟨u, hrest⟩ := List.head?_eq_some_iff.mp hpeek
    have hk : b = true ∨ c ≠ 'k' := hk.imp_right fun hne heq => hne (heq ▸ hpeek)
    have hescape := skips_escape_drop_one hrest hk
    have hone := hescape.mono (by decide : 1 ≤ 2)
    dsimp only at h
    split at h
    iterate 5
      · cases h
        exact hone
    · exact skips_controlEscape hrest h b
    · split at h
      · rename_i found hfound
        cases h
        exact (hescape.trans (skips_hex? hfound b)).mono (by decide)
      · split at h
        · cases h
        · cases h
          exact hone
    · split at h
      · rename_i found hfound
        cases h
        exact (hescape.trans (skips_unicodeEscape? hfound b)).mono (by decide)
      · split at h
        · cases h
        · cases h
          exact hone
    · split at h
      · cases h
        exact hone
      · split at h
        · rename_i hoctal
          obtain rfl : (cur.octal).2 = after := congrArg Prod.snd (Except.ok.inj h)
          have hback := skips_backslash (quiet_of_isDigit hoctal.2) hk u
          rw [← hrest] at hback
          exact hback.trans (skips_octalFrom 3 0 b cur)
        · split at h
          · cases h
          · cases h
            exact hone

end Escapes

/-! ## Properties -/

/-- The known names and values of properties consist of ASCII letters, digits and underscores. -/
def NamesAreWords (properties : PropertyLookup) : Prop :=
  ∀ name value set, properties name value = some set →
    ∀ c ∈ name.toList ++ value.elim [] String.toList, (c.isAlphanum || c == '_') = true

theorem namesAreWords_standard : NamesAreWords Property.standard := by
  have hword : ∀ name, Property.isName name = true →
      ∀ c ∈ name.toList, (c.isAlphanum || c == '_') = true := fun name h =>
    List.all_eq_true.mp (Bool.and_eq_true_iff.mp h).2
  intro name value set h c hc
  cases value with
  | none =>
    obtain ⟨hname, -⟩ := Option.ite_none_right_eq_some.mp h
    exact hword name hname c (by simpa using hc)
  | some value =>
    obtain ⟨hnames, -⟩ := Option.ite_none_right_eq_some.mp h
    obtain ⟨hname, hvalue⟩ := Bool.and_eq_true_iff.mp hnames
    exact (List.mem_append.mp hc).elim (hword name hname c) (hword value hvalue c)

/-- Names and values are the text around an equals sign. -/
theorem splitProperty_eq (text : List Char) : text = (splitProperty text).1.toList ++
    (splitProperty text).2.elim [] fun value => '=' :: value.toList := by
  unfold splitProperty
  have happend := List.takeWhile_append_dropWhile (p := (· != '=')) (l := text)
  split
  · simp
  · rename_i d value hdrop
    have hd : d = '=' := by
      have hhead := List.head_dropWhile_not (p := (· != '=')) (l := text) (by rw [hdrop]; simp)
      simpa [hdrop] using hhead
    rw [hdrop, hd] at happend
    simpa using happend.symm

section Settings

variable {s : Settings} {negated : Bool} {start : Nat} {cur after : Cursor}

theorem skips_property (hs : NamesAreWords s.properties) {set : CodePointSet}
    (h : property s negated start cur = .ok (set, after)) (b : Bool) :
    Skips 0 b cur.rest b after.rest := by
  unfold property at h
  split at h
  · cases h
  · rename_i opened hopen
    dsimp only at h
    split at h
    · rename_i closed set' hclose hset
      cases h
      have hquiet : ∀ c ∈ (opened.takeWhile (· != '\x7d')).1, Quiet c := by
        intro c hc
        rw [splitProperty_eq (opened.takeWhile (· != '\x7d')).1] at hc
        have hknown := hs _ _ _ hset c
        cases hvalue : (splitProperty (opened.takeWhile (· != '\x7d')).1).2 with
        | none =>
          rw [hvalue] at hc hknown
          exact quiet_of_word (hknown hc)
        | some value =>
          rw [hvalue] at hc hknown
          rcases List.mem_append.mp hc with hc | hc
          · exact quiet_of_word (hknown (List.mem_append_left _ hc))
          · rcases List.mem_cons.mp hc with rfl | hc
            · decide
            · exact quiet_of_word (hknown (List.mem_append_right _ hc))
      have htext := skips_append hquiet b (opened.takeWhile (· != '\x7d')).2.rest
      rw [← rest_takeWhile] at htext
      exact (((skips_skip? hopen rfl (by decide) b).trans htext).trans
        (skips_skip? hclose rfl (by decide) b)).mono (Nat.zero_le _)
    · cases h

/-! ## Classes -/

theorem skips_classAtom (hs : NamesAreWords s.properties) {a : ClassAtom}
    (hclose : cur.peek? ≠ some ']') (h : classAtom s cur = .ok (a, after)) :
    Skips 1 true cur.rest true after.rest := by
  unfold classAtom at h
  dsimp only at h
  split at h
  · cases h
  · rename_i u hrest
    cases h
    rw [Cursor.drop, hrest]
    exact (skips_escape (.inl rfl) u).mono (by decide)
  · rename_i e u _ hrest
    have hescape : Skips 2 true cur.rest true (cur.drop 2).rest := by
      rw [Cursor.drop, hrest]
      exact skips_escape (.inl rfl) u
    split at h
    · cases h
      exact hescape.mono (by decide)
    · split at h
      · obtain ⟨⟨set, cur'⟩, hproperty, h⟩ := bind_eq_ok.mp h
        cases h
        exact (hescape.trans (skips_property hs hproperty true)).mono (by decide)
      · obtain ⟨⟨c, cur'⟩, hchar, h⟩ := bind_eq_ok.mp h
        cases h
        have hskip := skips_characterEscape (.inl rfl) hchar
        rwa [rest_drop_one hrest, ← hrest] at hskip
  · cases h
  · rename_i c u _ hescape hlone hrest
    cases h
    rw [rest_drop_one hrest, hrest]
    refine skips_between ?_ ?_ u
    · rintro rfl
      cases u with
      | nil => exact hlone rfl rfl
      | cons e u => exact hescape e u rfl rfl
    · rintro rfl
      exact hclose (by rw [Cursor.peek?, hrest]; rfl)

theorem skips_classItem (hs : NamesAreWords s.properties) {rs : List CodePointRange}
    (hclose : cur.peek? ≠ some ']') (h : classItem s cur = .ok (rs, after)) :
    Skips 1 true cur.rest true after.rest := by
  obtain ⟨⟨a, cur1⟩, ha, h⟩ := bind_eq_ok.mp h
  have hfirst := skips_classAtom hs hclose ha
  dsimp only at h
  split at h
  · rename_i hdash
    obtain ⟨⟨b, cur2⟩, hb, h⟩ := bind_eq_ok.mp h
    obtain ⟨rs', -, h⟩ := bind_eq_ok.mp h
    cases h
    unfold beforeRangeDash at hdash
    split at hdash
    · rename_i c u hrest
      have hclose' : (cur1.drop 1).peek? ≠ some ']' := by
        rw [Cursor.peek?, rest_drop_one hrest]
        simpa using hdash
      have hrange := skips_drop_one hrest (by decide) true
      exact ((hfirst.trans hrange).trans (skips_classAtom hs hclose' hb)).mono (by decide)
    · cases hdash
  · cases h
    exact hfirst

theorem skips_classItems (hs : NamesAreWords s.properties) {fuel : Nat} {rs : List CodePointRange}
    (h : classItems s start fuel cur = .ok (rs, after)) :
    Skips 1 true cur.rest false after.rest := by
  induction fuel generalizing cur rs with
  | zero => cases h
  | succ fuel ih =>
    unfold classItems at h
    split at h
    · cases h
    · rename_i hpeek
      cases h
      obtain ⟨u, hrest⟩ := List.head?_eq_some_iff.mp hpeek
      rw [rest_drop_one hrest, hrest]
      exact skips_close true u
    · rename_i hclose hpeek
      obtain ⟨⟨item, cur1⟩, hitem, h⟩ := bind_eq_ok.mp h
      obtain ⟨⟨more, cur2⟩, hmore, h⟩ := bind_eq_ok.mp h
      cases h
      have hne : cur.peek? ≠ some ']' := fun heq => hclose (Option.some.inj (hpeek.symm.trans heq))
      exact ((skips_classItem hs hne hitem).trans (ih hmore)).mono (by decide)

theorem skips_charClass (hs : NamesAreWords s.properties) {set : CodePointSet}
    (h : charClass s start cur = .ok (set, after)) : Skips 0 true cur.rest false after.rest := by
  unfold charClass at h
  split at h
  · rename_i negated cur1 hnegated
    obtain ⟨⟨rs, cur2⟩, hitems, h⟩ := bind_eq_ok.mp h
    cases h
    have hsign : Skips 0 true cur.rest true cur1.rest := by
      split at hnegated
      · rename_i cur' hskip
        cases hnegated
        exact (skips_skip? hskip rfl (by decide) true).mono (Nat.zero_le _)
      · cases hnegated
        exact .refl true _
    exact (hsign.trans (skips_classItems hs hitems)).mono (Nat.zero_le _)

/-! ## Quantifiers -/

theorem skips_bounds? {found : Nat × Option Nat} (h : bounds? cur = some (found, after)) (b : Bool) :
    Skips 0 b cur.rest b after.rest := by
  simp only [bounds?, Option.bind_eq_bind, Option.bind_eq_some_iff] at h
  obtain ⟨opened, hopen, ⟨min, digits⟩, hdigits, h⟩ := h
  have hmin := (skips_skip? hopen rfl (by decide) b).trans (skips_numeral? hdigits b)
  split at h
  · obtain ⟨closed, hclose, h⟩ := Option.bind_eq_some_iff.mp h
    cases h
    exact (hmin.trans (skips_skip? hclose rfl (by decide) b)).mono (Nat.zero_le _)
  · rename_i cut hcut
    have hcut := hmin.trans (skips_skip? hcut rfl (by decide) b)
    split at h
    · rename_i closed hclose
      cases h
      exact (hcut.trans (skips_skip? hclose rfl (by decide) b)).mono (Nat.zero_le _)
    · obtain ⟨⟨max, digits⟩, hdigits, h⟩ := Option.bind_eq_some_iff.mp h
      obtain ⟨closed, hclose, h⟩ := Option.bind_eq_some_iff.mp h
      cases h
      exact ((hcut.trans (skips_numeral? hdigits b)).trans
        (skips_skip? hclose rfl (by decide) b)).mono (Nat.zero_le _)

theorem skips_iterations? {found : Nat × Option Nat} (h : iterations? cur = some (found, after))
    (b : Bool) : Skips 0 b cur.rest b after.rest := by
  have hsign : ∀ c, Quiet c → cur.peek? = some c → Skips 0 b cur.rest b (cur.drop 1).rest := by
    intro c hc hpeek
    obtain ⟨u, hrest⟩ := List.head?_eq_some_iff.mp hpeek
    exact (skips_drop_one hrest hc b).mono (Nat.zero_le _)
  unfold iterations? at h
  split at h
  iterate 3
    · rename_i hpeek
      cases h
      exact hsign _ (by decide) hpeek
  · exact skips_bounds? h b
  · cases h

theorem skips_quantifier {q : Option Quantifier} (h : quantifier s cur = .ok (q, after)) (b : Bool) :
    Skips 0 b cur.rest b after.rest := by
  unfold quantifier at h
  split at h
  · split at h
    · cases h
    · cases h
      exact .refl b _
  · rename_i hiterations
    have hskip := skips_iterations? hiterations b
    split at h
    · cases h
    · split at h
      · cases h
      · split at h
        · rename_i hlazy
          cases h
          exact hskip.trans ((skips_skip? hlazy rfl (by decide) b).mono (Nat.zero_le _))
        · cases h
          exact hskip

/-! ## Names -/

theorem quiet_of_isNamePart (h : isNamePart c = true) : Quiet c := by
  intro hc
  have hsign : c.toNat ∈ CharacterData.scannedSigns := by
    simp only [List.mem_cons, List.not_mem_nil, or_false] at hc
    rcases hc with rfl | rfl | rfl | rfl
    all_goals decide
  rw [isNamePart_scannedSigns hsign] at h
  cases h

theorem rest_of_groupName {name : String} (h : groupName cur = .ok (name, after)) :
    ∃ c cs, name = String.ofList (c :: cs) ∧ cur.rest = c :: cs ++ '>' :: after.rest ∧
      isNameStart c = true ∧ ∀ d ∈ c :: cs, isNamePart d = true := by
  have hrest := rest_takeWhile cur isNamePart
  have hpart : ∀ d ∈ (cur.takeWhile isNamePart).1, isNamePart d = true := fun d hd =>
    List.mem_takeWhile_imp hd
  unfold groupName at h
  split at h
  rename_i taken close htake
  rw [htake] at hrest hpart
  split at h
  · rename_i c cs closed hclose
    split at h
    · rename_i hstart
      cases h
      refine ⟨c, cs, rfl, ?_, hstart, hpart⟩
      rw [hrest, rest_of_skip? hclose]
      rfl
    · cases h
  · cases h

end Settings

end PatternAutomata.Pattern
