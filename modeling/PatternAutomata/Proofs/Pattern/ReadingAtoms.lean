import PatternAutomata.Proofs.Pattern.Consuming
import PatternAutomata.Proofs.Pattern.Folding

/-!
# Characters, classes and assertions are read as written

A character that is escaped because it would mean something else stands for itself, between brackets and
outside. The class that is read for a term has the members that the source tree gives to it.
-/

namespace PatternAutomata.Pattern

open Source

variable {w : List Char}

/-! ## Escapes -/

/-- The characters that may be escaped, between brackets at least. -/
def mayBeEscaped (c : Char) : Bool := isSyntaxChar c || c == '-'

theorem mayBeEscaped_iff {c : Char} :
    mayBeEscaped c = true ↔ c ∈ "^$\\.*+?()[]\x7b\x7d|/-".toList := by
  rw [mayBeEscaped, Bool.or_eq_true, beq_iff_eq, isSyntaxChar, List.contains_iff_mem,
    show "^$\\.*+?()[]\x7b\x7d|/-".toList = "^$\\.*+?()[]\x7b\x7d|/".toList ++ ['-'] from rfl,
    List.mem_append, List.mem_singleton]

/-- After a backslash the character begins no assertion, no reference and no property. -/
def Plain (c : Char) : Prop := c ∉ ['b', 'B', 'p', 'P', 'k'] ∧ c.isDigit = false

instance (c : Char) : Decidable (Plain c) := inferInstanceAs (Decidable (_ ∧ _))

theorem plain_of_mayBeEscaped {c : Char} (h : mayBeEscaped c = true) :
    Plain c ∧ classEscape? c = none := by
  have hall : "^$\\.*+?()[]\x7b\x7d|/-".toList.all
      (fun d => decide (Plain d) && (classEscape? d).isNone) = true := by decide +kernel
  have hc := List.all_eq_true.mp hall c (mayBeEscaped_iff.mp h)
  rw [Bool.and_eq_true, decide_eq_true_eq] at hc
  exact hc.imp_right Option.isNone_iff_eq_none.mp

theorem characterEscape_eq {unicode inClass : Bool} {c : Char} {start pos : Nat}
    (hc : isSyntaxChar c = true ∨ inClass = true ∧ c = '-') :
    characterEscape unicode inClass start ⟨pos, c :: w⟩ = .ok (c.toNat, ⟨pos + 1, w⟩) := by
  rcases hc with hc | ⟨rfl, rfl⟩
  · have hall : ∀ d ∈ "^$\\.*+?()[]\x7b\x7d|/".toList,
        characterEscape unicode inClass start ⟨pos, d :: w⟩ = .ok (d.toNat, ⟨pos + 1, w⟩) := by
      simp [characterEscape, Cursor.peek?, Cursor.isDigit, Cursor.digitValue?, isSyntaxChar,
        Cursor.drop]
    exact hall c (List.contains_iff_mem.mp hc)
  · simp [characterEscape, Cursor.peek?, Cursor.isDigit, Cursor.digitValue?, isSyntaxChar,
      Cursor.drop]

/-! ## Classes -/

section Classes

variable {s : Settings}

/-- The class that a letter after a backslash names. -/
def Source.ClassEscape.set (e : ClassEscape) : CodePointSet :=
  if e.negated then e.kind.set.compl else e.kind.set

theorem Source.ClassEscape.classEscape?_letter (e : ClassEscape) :
    classEscape? e.letter = some e.set := by
  obtain ⟨kind, negated⟩ := e
  cases kind <;> cases negated <;> rfl

theorem Source.ClassEscape.plain_letter (e : ClassEscape) : Plain e.letter := by
  obtain ⟨kind, negated⟩ := e
  cases kind <;> cases negated <;> decide

theorem Source.ClassEscape.bounded_set (e : ClassEscape) : e.set.Bounded :=
  bounded_of_classEscape? e.classEscape?_letter

theorem Source.ClassEscape.mem_set (e : ClassEscape) (c : Nat) : c ∈ e.set ↔ c ∈ e.members := by
  obtain ⟨kind, negated⟩ := e
  cases negated with
  | false => exact Iff.rfl
  | true => exact CodePointSet.mem_compl (bounded_set ⟨kind, false⟩)

theorem classAtom_raw {c : Char} {pos : Nat} (hc : c ≠ '\\') :
    classAtom s ⟨pos, c :: w⟩ = .ok (.point c.toNat, ⟨pos + 1, w⟩) := by
  unfold classAtom
  split
  · rename_i h
    cases h
  · rename_i h
    cases h
    exact absurd rfl hc
  · rename_i h
    cases h
    exact absurd rfl hc
  · rename_i h
    cases h
    exact absurd rfl hc
  · rename_i h
    cases h
    rfl

/-- An escape between brackets that is no backspace and no property is a class or a character. -/
theorem classAtom_escape {c : Char} {a : ClassAtom} {pos : Nat} (hc : Plain c)
    (h : (∃ set, classEscape? c = some set ∧ a = .set set) ∨
      classEscape? c = none ∧ mayBeEscaped c = true ∧ a = .point c.toNat) :
    classAtom s ⟨pos, '\\' :: c :: w⟩ = .ok (a, ⟨pos + 2, w⟩) := by
  have hne := hc.1
  simp only [List.mem_cons, List.not_mem_nil, or_false, not_or] at hne
  obtain ⟨hb, -, hp, hP, -⟩ := hne
  have hproperty : ¬(s.unicode = true ∧ (c = 'p' ∨ c = 'P')) := fun h => h.2.elim hp hP
  unfold classAtom
  split
  · rename_i heq
    cases heq
  · rename_i heq
    cases heq
    exact absurd rfl hb
  · rename_i heq
    cases heq
    rcases h with ⟨set, hclass, rfl⟩ | ⟨hclass, hmay, rfl⟩
    · simp only [hclass]
      rfl
    · have hescape : ∀ start, characterEscape s.unicode true start ⟨pos + 1, c :: w⟩ =
          .ok (c.toNat, ⟨pos + 2, w⟩) := fun start =>
        characterEscape_eq ((Bool.or_eq_true_iff.mp hmay).imp id fun h => ⟨rfl, beq_iff_eq.mp h⟩)
      simp only [hclass, Cursor.drop, List.drop_succ_cons, List.drop_zero, hescape]
      rw [if_neg hproperty]
      rfl
  · rename_i heq
    cases heq
  · rename_i hnot _ heq
    cases heq
    exact (hnot _ _ rfl rfl).elim

/-- A character in brackets is read as itself, escaped or not. -/
theorem consumes_classAtom (b : BracketEscapes) (c : Char) :
    Consumes (classAtom s) (charText (b.escaped c) c) w (.point c.toNat) := by
  intro pos
  cases hc : b.escaped c with
  | true =>
    have hmay : mayBeEscaped c = true :=
      Bool.or_eq_true_iff.mpr ((b.allowed c hc).imp id beq_iff_eq.mpr)
    obtain ⟨hplain, hclass⟩ := plain_of_mayBeEscaped hmay
    exact ⟨pos + 2, classAtom_escape hplain (.inr ⟨hclass, hmay, rfl⟩)⟩
  | false =>
    refine ⟨pos + 1, classAtom_raw ?_⟩
    rintro rfl
    rw [b.needed _ (by decide)] at hc
    cases hc

/-- Whether a character at the beginning of an item would mean something else. -/
def endsItem (c : Char) : Bool := "]^-".toList.contains c

theorem avoids_charText {b : BracketEscapes} {c : Char} :
    Avoids endsItem (charText (b.escaped c) c ++ w) := by
  cases hc : b.escaped c with
  | true => exact avoids_cons rfl
  | false =>
    refine avoids_cons (Bool.eq_false_iff.mpr fun hmem => ?_)
    have hall : "]^-".toList.all "][\\^-".toList.contains = true := rfl
    have hneeded := List.all_eq_true.mp hall c (List.contains_iff_mem.mp hmem)
    rw [b.needed c (List.contains_iff_mem.mp hneeded)] at hc
    cases hc

theorem avoids_itemText (b : BracketEscapes) (i : Item) :
    Avoids endsItem (i.text b ++ w) := by
  cases i with
  | char c => exact avoids_charText
  | range lo hi h =>
    rw [Item.text, List.append_assoc]
    exact avoids_charText
  | escape e => exact avoids_cons rfl

theorem itemText_ne_nil (b : BracketEscapes) (i : Item) : i.text b ≠ [] := by
  have hchar : ∀ c, charText (b.escaped c) c ≠ [] := by
    intro c
    cases b.escaped c <;> simp [charText]
  cases i with
  | char c => exact hchar c
  | range lo hi h => exact List.append_ne_nil_of_left_ne_nil (hchar lo) _
  | escape e => nofun

/-- The ranges that an item is read as. -/
def Source.Item.ranges : Item → List CodePointRange
  | char c => [.single c.toNat]
  | range lo hi h => [⟨lo.toNat, hi.toNat, h⟩]
  | escape e => e.set.ranges

theorem Source.Item.mem_ranges (i : Item) (c : Nat) :
    (∃ r ∈ i.ranges, r.lo ≤ c ∧ c ≤ r.hi) ↔ c ∈ i.members := by
  cases i with
  | char d => exact CodePointSet.mem_iff.symm.trans CodePointSet.mem_single
  | range lo hi h => simp only [ranges, List.mem_singleton, exists_eq_left]; rfl
  | escape e => exact CodePointSet.mem_iff.symm.trans (e.mem_set c)

theorem Source.Item.hi_le (i : Item) : ∀ r ∈ i.ranges, r.hi ≤ maxCodePoint := by
  cases i with
  | char c => exact fun r hr => List.mem_singleton.mp hr ▸ toNat_le_maxCodePoint c
  | range lo hi h => exact fun r hr => List.mem_singleton.mp hr ▸ toNat_le_maxCodePoint hi
  | escape e => exact CodePointSet.bounded_iff.mp e.bounded_set

theorem beforeRangeDash_eq_false {pos : Nat} (hw : Avoids (· == '-') w) :
    beforeRangeDash ⟨pos, w⟩ = false := by
  unfold beforeRangeDash
  split
  · rename_i h
    simp only at h
    cases hw '-' (by rw [h]; rfl)
  · rfl

theorem consumes_classItem (b : BracketEscapes) (i : Item) (hw : Avoids (· == '-') w) :
    Consumes (classItem s) (i.text b) w i.ranges := by
  intro pos
  cases i with
  | char c =>
    obtain ⟨pos', hc⟩ := consumes_classAtom b c (s := s) (w := w) pos
    refine ⟨pos', ?_⟩
    simp only [Item.text, classItem, hc, pure_bind, beforeRangeDash_eq_false hw]
    rfl
  | range lo hi h =>
    obtain ⟨pos1, hlo⟩ :=
      consumes_classAtom b lo (s := s) (w := '-' :: (charText (b.escaped hi) hi ++ w)) pos
    obtain ⟨pos2, hhi⟩ := consumes_classAtom b hi (s := s) (w := w) (pos1 + 1)
    refine ⟨pos2, ?_⟩
    have hdash : beforeRangeDash ⟨pos1, '-' :: (charText (b.escaped hi) hi ++ w)⟩ = true := by
      have hhead := avoids_charText (b := b) (c := hi) (w := w)
      revert hhead
      cases b.escaped hi with
      | true => exact fun _ => rfl
      | false =>
        intro hhead
        have hne := hhead hi rfl
        exact bne_iff_ne.mpr fun heq => by cases heq ▸ hne
    have hrange : CodePointRange.ofBounds? lo.toNat hi.toNat = some ⟨lo.toNat, hi.toNat, h⟩ :=
      dif_pos ⟨h, toNat_le_maxCodePoint hi⟩
    simp only [Item.text, List.append_assoc, List.cons_append, classItem, hlo, pure_bind, hdash,
      Cursor.drop, if_true, List.drop_succ_cons, List.drop_zero, hhi, rangeOf, hrange]
    rfl
  | escape e =>
    have he : classAtom s ⟨pos, '\\' :: e.letter :: w⟩ = pure (.set e.set, ⟨pos + 2, w⟩) :=
      classAtom_escape e.plain_letter (.inl ⟨e.set, e.classEscape?_letter, rfl⟩)
    refine ⟨pos + 2, ?_⟩
    simp only [Item.text, List.cons_append, List.nil_append, classItem, he, pure_bind,
      beforeRangeDash_eq_false hw]
    rfl

theorem avoids_items {p : Char → Bool} (hp : ∀ c, p c = true → endsItem c = true)
    (hclose : p ']' = false) (b : BracketEscapes) (items : List Item) :
    Avoids p (items.flatMap (Item.text b) ++ [']'] ++ w) := by
  cases items with
  | nil => exact avoids_cons hclose
  | cons i items =>
    rw [List.flatMap_cons, List.append_assoc, List.append_assoc]
    exact (avoids_itemText b i).imp hp

theorem consumes_classItems {b : BracketEscapes} {items : List Item} {start fuel : Nat}
    (hfuel : items.length < fuel) : Consumes (classItems s start fuel)
      (items.flatMap (Item.text b) ++ [']']) w (items.flatMap Item.ranges) := by
  induction items generalizing fuel with
  | nil =>
    intro pos
    cases fuel with
    | zero => cases hfuel
    | succ fuel => exact ⟨pos + 1, rfl⟩
  | cons i items ih =>
    intro pos
    cases fuel with
    | zero => cases hfuel
    | succ fuel =>
      have htext : (i :: items).flatMap (Item.text b) ++ [']'] ++ w =
          i.text b ++ (items.flatMap (Item.text b) ++ [']'] ++ w) := by simp
      have hnext : Avoids (· == '-') (items.flatMap (Item.text b) ++ [']'] ++ w) :=
        avoids_items (fun c hc => by rw [beq_iff_eq.mp hc]; rfl) rfl b items
      obtain ⟨pos1, hitem⟩ := consumes_classItem (s := s) b i hnext pos
      obtain ⟨pos2, hmore⟩ := ih (Nat.lt_of_succ_lt_succ hfuel) pos1
      refine ⟨pos2, ?_⟩
      rw [htext, classItems]
      split
      · rename_i h
        exact absurd (List.append_eq_nil_iff.mp (List.head?_eq_none_iff.mp h)).1 (itemText_ne_nil b i)
      · rename_i h
        cases avoids_itemText b i _ h
      · simp only [hitem, hmore, pure_bind]
        rfl

theorem length_le_itemsText (b : BracketEscapes) (items : List Item) :
    items.length ≤ (items.flatMap (Item.text b)).length := by
  induction items with
  | nil => exact Nat.le_refl _
  | cons i items ih =>
    have hpos := List.length_pos_iff.mpr (itemText_ne_nil b i)
    rw [List.flatMap_cons, List.length_append, List.length_cons]
    omega

theorem consumes_charClass (start : Nat) (b : BracketEscapes) (negated : Bool) (items : List Item) :
    Consumes (charClass s start)
      ((if negated then ['^'] else []) ++ items.flatMap (Item.text b) ++ [']']) w
      (if negated then (s.foldCase (.ofRanges (items.flatMap Item.ranges))).compl
        else s.foldCase (.ofRanges (items.flatMap Item.ranges))) := by
  intro pos
  have hitems : Consumes (classItems s start (items.flatMap (Item.text b) ++ [']'] ++ w).length)
      (items.flatMap (Item.text b) ++ [']']) w (items.flatMap Item.ranges) := by
    refine consumes_classItems ?_
    have := length_le_itemsText b items
    simp only [List.length_append, List.length_singleton]
    omega
  cases negated with
  | true =>
    obtain ⟨pos', h⟩ := hitems (pos + 1)
    refine ⟨pos', ?_⟩
    have hskip : Cursor.skip? ⟨pos, '^' :: (items.flatMap (Item.text b) ++ [']'] ++ w)⟩ "^" =
      some ⟨pos + 1, items.flatMap (Item.text b) ++ [']'] ++ w⟩ := rfl
    simp only [if_true, List.cons_append, List.nil_append, charClass, hskip, h]
    rfl
  | false =>
    obtain ⟨pos', h⟩ := hitems pos
    refine ⟨pos', ?_⟩
    have hskip : Cursor.skip? ⟨pos, items.flatMap (Item.text b) ++ [']'] ++ w⟩ "^" = none :=
      skip?_eq_none rfl (avoids_items (fun c hc => by rw [beq_iff_eq.mp hc]; rfl) rfl b items)
    simp only [Bool.false_eq_true, if_false, List.nil_append, charClass, hskip, h]
    rfl

end Classes

/-! ## Atoms -/

/-- The settings that these flags lead to. -/
structure Follows (s : Settings) (flags : Flags) : Prop where
  ignoreCase : s.ignoreCase = flags.ignoreCase
  dotAll : s.dotAll = flags.dotAll
  unicode : s.unicode = flags.unicode

section Atoms

variable {s : Settings} {flags : Flags}

theorem bounded_foldCase {set : CodePointSet} (h : set.Bounded) : (s.foldCase set).Bounded := by
  unfold Settings.foldCase
  split
  · exact CodePointSet.bounded_caseClosure h
  · exact h

theorem members_foldCase (hs : Follows s flags) {set : CodePointSet} (h : set.Bounded) :
    {c | c ∈ s.foldCase set} = flags.closure {c | c ∈ set} := by
  ext c
  unfold Settings.foldCase Flags.closure Flags.form
  rw [hs.ignoreCase, hs.unicode]
  cases flags.ignoreCase with
  | false =>
    constructor
    · exact fun hc => ⟨c, hc, rfl⟩
    · rintro ⟨d, hd, rfl : c = d⟩
      exact hd
  | true =>
    refine (CodePointSet.mem_caseClosure h).trans (exists_congr fun d => and_congr_right fun _ => ?_)
    cases flags.unicode <;> rfl

/-- Whether a term may begin with the character, other than a group. -/
def opensAtom (c : Char) : Bool := !"|()".toList.contains c

/-- Before `w` the text is read as the atom. -/
def ReadsAtom (s : Settings) (text w : List Char) (a : Atom) : Prop :=
  ∃ c rest, text = c :: rest ∧ opensAtom c = true ∧
    ∀ pos, ∃ pos', atom s c ⟨pos, text ++ w⟩ = .ok (a, ⟨pos', w⟩)

theorem readsAtom_assertion (a : Assertion) :
    ReadsAtom s a.render.toList w (assertionAtom a) := by
  cases a with
  | atStart => exact ⟨'^', [], rfl, rfl, fun pos => ⟨pos + 1, rfl⟩⟩
  | atEnd => exact ⟨'$', [], rfl, rfl, fun pos => ⟨pos + 1, rfl⟩⟩
  | wordBoundary => exact ⟨'\\', ['b'], rfl, rfl, fun pos => ⟨pos + 2, rfl⟩⟩
  | notWordBoundary => exact ⟨'\\', ['B'], rfl, rfl, fun pos => ⟨pos + 2, rfl⟩⟩

theorem atom_raw {c : Char} {pos : Nat} (hc : isSyntaxChar c = false) :
    atom s c ⟨pos, c :: w⟩ = .ok (literal s c.toNat, ⟨pos + 1, w⟩) := by
  unfold atom
  simp only
  split
  all_goals
    first
    | cases hc
    | rfl

/-- An escape that is no assertion, no reference and no property is a class or a character. -/
theorem atomEscape_eq {c : Char} {a : Atom} {start pos : Nat} (hc : Plain c)
    (h : (∃ set, classEscape? c = some set ∧ a = ⟨.charClass (s.foldCase set), true⟩) ∨
      classEscape? c = none ∧ isSyntaxChar c = true ∧ a = literal s c.toNat) :
    atomEscape s start ⟨pos, c :: w⟩ = .ok (a, ⟨pos + 1, w⟩) := by
  obtain ⟨hne, hdigit⟩ := hc
  simp only [List.mem_cons, List.not_mem_nil, or_false, not_or] at hne
  obtain ⟨hb, hB, hp, hP, hk⟩ := hne
  have hnumber : ¬(c ≠ '0' ∧ c.isDigit = true) := fun h => by cases hdigit.symm.trans h.2
  have hname : ¬(c = 'k' ∧ (s.unicode = true ∨ s.hasNamedGroups = true)) := fun h => hk h.1
  have hproperty : ¬(s.unicode = true ∧ (c = 'p' ∨ c = 'P')) := fun h => h.2.elim hp hP
  unfold atomEscape
  split
  · rename_i hpeek
    cases hpeek
  · rename_i hpeek
    cases hpeek
    exact absurd rfl hb
  · rename_i hpeek
    cases hpeek
    exact absurd rfl hB
  · rename_i hpeek
    cases hpeek
    rw [if_neg hnumber, if_neg hname, if_neg hproperty]
    rcases h with ⟨set, hclass, rfl⟩ | ⟨hclass, hspecial, rfl⟩
    · simp only [hclass]
      rfl
    · simp only [hclass, characterEscape_eq (.inl hspecial)]
      rfl

/-- The class that a term for one character is read as. -/
def Source.Leaf.set (s : Settings) : Leaf → CodePointSet
  | char c => s.foldCase (.single c.toNat)
  | dot => .dot s.dotAll
  | escape e => s.foldCase e.set
  | bracket negated items =>
    if negated then (s.foldCase (.ofRanges (items.flatMap Item.ranges))).compl
    else s.foldCase (.ofRanges (items.flatMap Item.ranges))

theorem Source.members_items (items : List Item) :
    {c | c ∈ CodePointSet.ofRanges (items.flatMap Item.ranges)} =
      {c | ∃ i ∈ items, c ∈ i.members} := by
  ext c
  refine CodePointSet.mem_ofRanges.trans ?_
  constructor
  · rintro ⟨r, hr, hc⟩
    obtain ⟨i, hi, hr⟩ := List.mem_flatMap.mp hr
    exact ⟨i, hi, (i.mem_ranges c).mp ⟨r, hr, hc⟩⟩
  · rintro ⟨i, hi, hc⟩
    obtain ⟨r, hr, hc⟩ := (i.mem_ranges c).mpr hc
    exact ⟨r, List.mem_flatMap.mpr ⟨i, hi, hr⟩, hc⟩

theorem Source.Leaf.members_set (hs : Follows s flags) (l : Leaf) :
    {c | c ∈ l.set s} = l.members flags := by
  cases l with
  | char c =>
    refine (members_foldCase hs (CodePointSet.bounded_single (toNat_le_maxCodePoint c))).trans ?_
    exact congrArg flags.closure (Set.ext fun d => CodePointSet.mem_single)
  | dot =>
    ext c
    show c ∈ CodePointSet.dot s.dotAll ↔ _
    rw [hs.dotAll, CodePointSet.dot]
    cases hdot : flags.dotAll with
    | true => exact CodePointSet.mem_full.trans (and_iff_left (.inl hdot)).symm
    | false =>
      have hline : CodePointSet.lineTerminators.Bounded := CodePointSet.bounded_iff.mpr (by decide)
      refine (CodePointSet.mem_compl hline).trans (and_congr_right fun _ => ?_)
      exact (or_iff_right (by rw [hdot]; exact Bool.false_ne_true)).symm
  | escape e =>
    refine (members_foldCase hs e.bounded_set).trans ?_
    exact congrArg flags.closure (Set.ext e.mem_set)
  | bracket negated items =>
    have hbounded : (CodePointSet.ofRanges (items.flatMap Item.ranges)).Bounded :=
      CodePointSet.bounded_ofRanges fun r hr => by
        obtain ⟨i, -, hr⟩ := List.mem_flatMap.mp hr
        exact i.hi_le r hr
    have hmembers := members_foldCase hs hbounded
    rw [members_items] at hmembers
    cases negated with
    | false => exact hmembers
    | true =>
      ext c
      refine (CodePointSet.mem_compl (bounded_foldCase hbounded)).trans
        (and_congr_right fun _ => not_congr ?_)
      exact Set.ext_iff.mp hmembers c

theorem readsAtom_leaf (b : BracketEscapes) (l : Leaf) :
    ReadsAtom s (l.text b) w ⟨.charClass (l.set s), true⟩ := by
  cases l with
  | char c =>
    cases hc : isSyntaxChar c with
    | true =>
      obtain ⟨hplain, hclass⟩ := plain_of_mayBeEscaped (Bool.or_eq_true_iff.mpr (.inl hc))
      refine ⟨'\\', [c], by simp [Leaf.text, charText, hc], rfl, fun pos => ⟨pos + 2, ?_⟩⟩
      simp only [Leaf.text, charText, hc, if_true]
      exact atomEscape_eq hplain (.inr ⟨hclass, hc, rfl⟩)
    | false =>
      refine ⟨c, [], by simp [Leaf.text, charText, hc], ?_, fun pos => ⟨pos + 1, ?_⟩⟩
      · rw [opensAtom, Bool.not_eq_true', Bool.eq_false_iff]
        intro hmem
        have hall : "|()".toList.all isSyntaxChar = true := rfl
        cases hc.symm.trans (List.all_eq_true.mp hall c (List.contains_iff_mem.mp hmem))
      · simp only [Leaf.text, charText, hc]
        exact atom_raw hc
  | dot => exact ⟨'.', [], rfl, rfl, fun pos => ⟨pos + 1, rfl⟩⟩
  | escape e =>
    exact ⟨'\\', [e.letter], rfl, rfl, fun pos => ⟨pos + 2,
      atomEscape_eq e.plain_letter (.inl ⟨e.set, e.classEscape?_letter, rfl⟩)⟩⟩
  | bracket negated items =>
    refine ⟨'[', _, rfl, rfl, fun pos => ?_⟩
    obtain ⟨pos', h⟩ := consumes_charClass pos b negated items (s := s) (w := w) (pos + 1)
    refine ⟨pos', ?_⟩
    show (charClass s pos ⟨pos + 1, _⟩ >>= _) = _
    rw [show List.drop 1 (Leaf.text b (.bracket negated items) ++ w) =
      (if negated then ['^'] else []) ++ items.flatMap (Item.text b) ++ [']'] ++ w from rfl, h]
    rfl

end Atoms

end PatternAutomata.Pattern
