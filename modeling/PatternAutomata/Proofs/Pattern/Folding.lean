import PatternAutomata.Proofs.CaseForms
import PatternAutomata.Proofs.Pattern.Kinds
import Mathlib.Algebra.Group.Nat.Defs

/-!
# Classes of patterns that ignore case

Whatever escape, class or property a pattern names, its members are code points. So when case is
ignored, folding leaves a class in the tree that does not tell letters from their other case; the
dot is not folded, and need not be.
-/

namespace PatternAutomata

/-! ## Code points that escapes stand for -/

namespace Cursor

theorem digitValue?_lt {base d : Nat} {c : Char} (h : digitValue? base c = some d) : d < base := by
  simp only [digitValue?, Option.ite_none_right_eq_some, Option.some.injEq] at h
  exact h.2 ▸ h.1

theorem number_lt {base : Nat} (hbase : 0 < base) (bound : Nat) (digits : List Char) :
    number base bound digits < base ^ digits.length := by
  have hfold : ∀ n, digits.foldl (fun n c => min (n * base + (digitValue? base c).getD 0) bound) n <
      (n + 1) * base ^ digits.length := by
    induction digits with
    | nil => simp
    | cons c digits ih =>
      intro n
      have hdigit : (digitValue? base c).getD 0 < base := by
        cases hd : digitValue? base c with
        | none => exact hbase
        | some d => exact digitValue?_lt hd
      have hstep : min (n * base + (digitValue? base c).getD 0) bound + 1 ≤ (n + 1) * base := by
        rw [Nat.add_mul, Nat.one_mul]
        omega
      calc _ < _ := ih _
        _ ≤ (n + 1) * base * base ^ digits.length := Nat.mul_le_mul_right _ hstep
        _ = (n + 1) * base ^ (c :: digits).length := by
          rw [List.length_cons, Nat.pow_succ', Nat.mul_assoc]
  have h := hfold 0
  rwa [Nat.zero_add, Nat.one_mul] at h

theorem hex?_lt {n value : Nat} {cur after : Cursor} (h : cur.hex? n = some (value, after)) :
    value < 16 ^ n := by
  unfold hex? at h
  dsimp only at h
  split at h
  · rename_i hdigits
    cases h
    calc _ < _ := number_lt (by decide) maxNumber (cur.rest.take n)
      _ = 16 ^ n := by rw [hdigits.1]
  · cases h

theorem octalFrom_lt (n : Nat) {value : Nat} (hvalue : value < 256) (cur : Cursor) :
    (octalFrom n value cur).1 < 256 := by
  induction n generalizing value cur with
  | zero => exact hvalue
  | succ n ih =>
    unfold octalFrom
    split
    · split
      · rename_i hlt
        exact ih hlt _
      · exact hvalue
    · exact hvalue

end Cursor

namespace Pattern

variable {s : Settings} {start c : Nat} {cur after : Cursor}

theorem le_of_bracedCodePoint? (h : bracedCodePoint? cur = some (c, after)) : c ≤ maxCodePoint := by
  simp only [bracedCodePoint?, Option.bind_eq_bind, Option.bind_eq_some_iff] at h
  obtain ⟨_, -, ⟨value, cur⟩, -, _, -, h⟩ := h
  split at h
  · rename_i hle
    cases h
    exact hle
  · cases h

theorem lt_of_trailEscape? (h : trailEscape? cur = some (c, after)) : c < 0xE000 := by
  simp only [trailEscape?, Option.bind_eq_bind, Option.bind_eq_some_iff] at h
  obtain ⟨_, -, ⟨trail, cur⟩, -, h⟩ := h
  split at h
  · rename_i hbounds
    cases h
    exact hbounds.2
  · cases h

theorem le_of_unicodeEscape? {unicode : Bool} (h : unicodeEscape? unicode cur = some (c, after)) :
    c ≤ maxCodePoint := by
  have hmax : maxCodePoint = 0x10FFFF := rfl
  unfold unicodeEscape? at h
  split at h
  · exact le_of_bracedCodePoint? h
  · split at h
    · cases h
    · rename_i lead cur hlead
      have hlead := Cursor.hex?_lt hlead
      split at h
      · rename_i htrail
        have htrail := lt_of_trailEscape? htrail
        split at h
        · rename_i hpair
          obtain ⟨rfl, -⟩ := Prod.mk.inj (Option.some.inj h)
          unfold joinSurrogates
          omega
        · cases h
          omega
      · cases h
        omega

theorem le_of_controlEscape {unicode inClass : Bool}
    (h : controlEscape unicode inClass start cur = .ok (c, after)) : c ≤ maxCodePoint := by
  have hmax : maxCodePoint = 0x10FFFF := rfl
  unfold controlEscape at h
  dsimp only at h
  split at h
  · cases h
    omega
  · split at h
    · cases h
    · cases h
      decide

theorem le_of_characterEscape {unicode inClass : Bool}
    (h : characterEscape unicode inClass start cur = .ok (c, after)) : c ≤ maxCodePoint := by
  have hmax : maxCodePoint = 0x10FFFF := rfl
  unfold characterEscape at h
  split at h
  · cases h
  · dsimp only at h
    split at h
    iterate 5
      · cases h
        decide
    · exact le_of_controlEscape h
    · split at h
      · rename_i hfound
        cases h
        have := Cursor.hex?_lt hfound
        omega
      · split at h <;> cases h
        decide
    · split at h
      · rename_i hfound
        cases h
        exact le_of_unicodeEscape? hfound
      · split at h <;> cases h
        decide
    · split at h
      · cases h
        omega
      · split at h
        · have hlt := Cursor.octalFrom_lt 3 (by decide : 0 < 256) cur
          have heq : Cursor.octal cur = (c, after) := Except.ok.inj h
          rw [← Cursor.octal, heq] at hlt
          omega
        · split at h
          · cases h
          · cases h
            exact toNat_le_maxCodePoint _

/-! ## Classes -/

theorem bounded_of_classEscape? {e : Char} {set : CodePointSet} (h : classEscape? e = some set) :
    set.Bounded := by
  have hdigits : CodePointSet.digits.Bounded := CodePointSet.bounded_iff.mpr (by decide +kernel)
  have hspace : CodePointSet.whiteSpace.Bounded := CodePointSet.bounded_iff.mpr (by decide +kernel)
  have hword : CodePointSet.wordChars.Bounded := CodePointSet.bounded_iff.mpr (by decide +kernel)
  unfold classEscape? at h
  split at h <;> cases h
  · exact hdigits
  · exact hdigits.compl
  · exact hspace
  · exact hspace.compl
  · exact hword
  · exact hword.compl

/-- The known properties are sets of code points. -/
def BoundedProperties (properties : PropertyLookup) : Prop :=
  ∀ name value set, properties name value = some set → set.Bounded

theorem bounded_of_property (hs : BoundedProperties s.properties) {negated : Bool}
    {set : CodePointSet} (h : property s negated start cur = .ok (set, after)) : set.Bounded := by
  unfold property at h
  split at h
  · cases h
  · dsimp only at h
    split at h
    · rename_i hset
      cases h
      split
      · exact (hs _ _ _ hset).compl
      · exact hs _ _ _ hset
    · cases h

theorem le_of_classAtom (hs : BoundedProperties s.properties) {a : ClassAtom}
    (h : classAtom s cur = .ok (a, after)) : ∀ r ∈ a.ranges, r.hi ≤ maxCodePoint := by
  have hpoint : ∀ c ≤ maxCodePoint, ∀ r ∈ (ClassAtom.point c).ranges, r.hi ≤ maxCodePoint :=
    fun c hc r hr => List.mem_singleton.mp hr ▸ hc
  have hset : ∀ set : CodePointSet, set.Bounded →
      ∀ r ∈ (ClassAtom.set set).ranges, r.hi ≤ maxCodePoint :=
    fun set hset => CodePointSet.bounded_iff.mp hset
  unfold classAtom at h
  dsimp only at h
  split at h
  · cases h
  · cases h
    exact hpoint _ (by decide)
  · split at h
    · rename_i hescape
      cases h
      exact hset _ (bounded_of_classEscape? hescape)
    · split at h
      · obtain ⟨⟨set, cur⟩, hproperty, h⟩ := bind_eq_ok.mp h
        cases h
        exact hset _ (bounded_of_property hs hproperty)
      · obtain ⟨⟨c, cur⟩, hescape, h⟩ := bind_eq_ok.mp h
        cases h
        exact hpoint _ (le_of_characterEscape hescape)
  · cases h
  · cases h
    exact hpoint _ (toNat_le_maxCodePoint _)

theorem le_of_rangeOf {unicode : Bool} {a b : ClassAtom} {rs : List CodePointRange}
    (ha : ∀ r ∈ a.ranges, r.hi ≤ maxCodePoint) (hb : ∀ r ∈ b.ranges, r.hi ≤ maxCodePoint)
    (h : rangeOf unicode start a b = .ok rs) : ∀ r ∈ rs, r.hi ≤ maxCodePoint := by
  unfold rangeOf at h
  split at h
  · split at h
    · rename_i hrange
      cases h
      intro r hr
      obtain rfl := List.mem_singleton.mp hr
      unfold CodePointRange.ofBounds? at hrange
      split at hrange
      · rename_i hbounds
        cases hrange
        exact hbounds.2
      · cases hrange
    · cases h
  · split at h
    · cases h
    · cases h
      intro r hr
      rcases List.mem_append.mp hr with hr | hr
      · exact ha r hr
      · rcases List.mem_cons.mp hr with rfl | hr
        · decide
        · exact hb r hr

theorem le_of_classItem (hs : BoundedProperties s.properties) {rs : List CodePointRange}
    (h : classItem s cur = .ok (rs, after)) : ∀ r ∈ rs, r.hi ≤ maxCodePoint := by
  obtain ⟨⟨a, cur'⟩, ha, h⟩ := bind_eq_ok.mp h
  dsimp only at h
  split at h
  · obtain ⟨⟨b, cur''⟩, hb, h⟩ := bind_eq_ok.mp h
    obtain ⟨rs', hrs, h⟩ := bind_eq_ok.mp h
    cases h
    exact le_of_rangeOf (le_of_classAtom hs ha) (le_of_classAtom hs hb) hrs
  · cases h
    exact le_of_classAtom hs ha

theorem le_of_classItems (hs : BoundedProperties s.properties) {fuel : Nat}
    {rs : List CodePointRange} (h : classItems s start fuel cur = .ok (rs, after)) :
    ∀ r ∈ rs, r.hi ≤ maxCodePoint := by
  induction fuel generalizing cur rs with
  | zero => cases h
  | succ fuel ih =>
    unfold classItems at h
    split at h
    · cases h
    · cases h
      nofun
    · obtain ⟨⟨item, cur'⟩, hitem, h⟩ := bind_eq_ok.mp h
      obtain ⟨⟨more, cur''⟩, hmore, h⟩ := bind_eq_ok.mp h
      cases h
      intro r hr
      rcases List.mem_append.mp hr with hr | hr
      · exact le_of_classItem hs hitem r hr
      · exact ih hmore r hr

/-! ## Atoms -/

/-- If the node is a class, that does not tell letters from their other case. -/
def IgnoresCase (unicode : Bool) (k : NodeKind) : Prop :=
  ∀ set, k = .charClass set → set.Blind (SameLetter unicode)

theorem ignoresCase_charClass {unicode : Bool} {set : CodePointSet}
    (h : set.Blind (SameLetter unicode)) : IgnoresCase unicode (.charClass set) := by
  intro set' hset
  cases hset
  exact h

theorem blind_foldCase (hi : s.ignoreCase = true) {set : CodePointSet} (h : set.Bounded) :
    (s.foldCase set).Blind (SameLetter s.unicode) := by
  rw [Settings.foldCase, if_pos hi]
  exact CodePointSet.blind_caseClosure h

theorem blind_of_charClass (hi : s.ignoreCase = true) (hs : BoundedProperties s.properties)
    {set : CodePointSet} (h : charClass s start cur = .ok (set, after)) :
    set.Blind (SameLetter s.unicode) := by
  obtain ⟨⟨rs, cur'⟩, hrs, h⟩ := bind_eq_ok.mp h
  have hfold : (s.foldCase (.ofRanges rs)).Blind (SameLetter s.unicode) :=
    blind_foldCase hi (CodePointSet.bounded_ofRanges (le_of_classItems hs hrs))
  cases h
  split
  · exact hfold.compl
  · exact hfold

theorem ignoresCase_literal (hi : s.ignoreCase = true) (hc : c ≤ maxCodePoint) :
    IgnoresCase s.unicode (literal s c).kind :=
  ignoresCase_charClass (blind_foldCase hi (CodePointSet.bounded_single hc))

theorem ignoresCase_of_readsNumber (hi : s.ignoreCase = true) {e : Char} {a : Atom}
    (h : ReadsNumber s e cur a after) : IgnoresCase s.unicode a.kind := by
  cases h with
  | group hread hn => nofun
  | octal hc =>
    have hlt := Cursor.octalFrom_lt 3 (by decide : 0 < 256) cur
    exact ignoresCase_literal hi (Nat.le_trans (Nat.le_of_lt hlt) (by decide))
  | digit => exact ignoresCase_literal hi (toNat_le_maxCodePoint _)

theorem ignoresCase_of_readsEscape (hi : s.ignoreCase = true) (hs : BoundedProperties s.properties)
    {a : Atom} (h : ReadsEscape s start cur a after) : IgnoresCase s.unicode a.kind := by
  cases h with
  | wordBoundary hpeek => nofun
  | notWordBoundary hpeek => nofun
  | number hpeek hzero hc h => exact ignoresCase_of_readsNumber hi h
  | name hpeek hnames h =>
    cases h
    nofun
  | property hpeek hc hset =>
    exact ignoresCase_charClass (blind_foldCase hi (bounded_of_property hs hset))
  | charClass hpeek hset =>
    exact ignoresCase_charClass (blind_foldCase hi (bounded_of_classEscape? hset))
  | char hnames hchar => exact ignoresCase_literal hi (le_of_characterEscape hchar)

theorem ignoresCase_of_atom (hi : s.ignoreCase = true) (hs : BoundedProperties s.properties)
    {e : Char} {a : Atom} (h : atom s e cur = .ok (a, after)) : IgnoresCase s.unicode a.kind := by
  cases atom_eq_ok h with
  | atStart hc => nofun
  | atEnd hc => nofun
  | escape hc h => exact ignoresCase_of_readsEscape hi hs h
  | dot hc => exact ignoresCase_charClass (CodePointSet.blind_dot _)
  | charClass hc hset => exact ignoresCase_charClass (blind_of_charClass hi hs hset)
  | char hescape hclass => exact ignoresCase_literal hi (toNat_le_maxCodePoint _)

/-! ## Trees -/

/-- No class of a pattern that ignores case tells letters from their other case. -/
theorem blind_of_parse {pattern : String} {flags : Flags} {budget : Budget}
    {properties : PropertyLookup} {t : Tree} (hi : flags.ignoreCase = true)
    (hs : BoundedProperties properties) (h : parse pattern flags budget properties = .ok t)
    {id : NodeId} {set : CodePointSet} (hset : t.kind id = .charClass set) :
    set.Blind (SameLetter flags.unicode) := by
  refine kinds_of_parse (K := IgnoresCase flags.unicode) (fun hi => ?_) (fun g => nofun) ?_ h id set
    hset
  · exact ⟨nofun, fun _ => nofun, fun _ => nofun, fun _ _ _ => nofun, fun _ _ _ => nofun⟩
  · rintro s rfl e cur a cur' ha
    exact ignoresCase_of_atom hi hs ha

end Pattern

end PatternAutomata
