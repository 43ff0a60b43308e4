import PatternAutomata.Pattern.Reader
import PatternAutomata.Proofs.Results

/-!
# What atoms are read as

The readers of atoms branch on the next characters and on whether Unicode rules apply. The relations
here tell once what each of them can give, so a proof about atoms has one case for each construct.
-/

namespace PatternAutomata.Pattern

variable {s : Settings} {start : Nat} {c : Char} {cur after : Cursor} {a : Atom}

/-- A reference by number, that begins with the digit `c`. -/
inductive ReadsNumber (s : Settings) (c : Char) (cur : Cursor) : Atom → Cursor → Prop
  | group {n : Nat} {after : Cursor} (hread : cur.numeral? 10 = some (n, after))
      (hn : n < s.declared.length) : ReadsNumber s c cur ⟨.backReference n, true⟩ after
  | octal (hc : Cursor.isDigit 8 c = true) :
      ReadsNumber s c cur (literal s cur.octal.1) cur.octal.2
  | digit : ReadsNumber s c cur (literal s c.toNat) (cur.drop 1)

/-- A reference by name. -/
inductive ReadsName (s : Settings) (cur : Cursor) : Atom → Cursor → Prop
  | group {opened after : Cursor} {name : String} {n : Nat} (hopen : cur.skip? "<" = some opened)
      (hname : groupName opened = .ok (name, after))
      (hn : s.declared.findIdx? (· == some name) = some n) :
      ReadsName s cur ⟨.backReference n, true⟩ after

/-- An escape, whose backslash is at `start`. -/
inductive ReadsEscape (s : Settings) (start : Nat) (cur : Cursor) : Atom → Cursor → Prop
  | wordBoundary (hpeek : cur.peek? = some 'b') :
      ReadsEscape s start cur (assertionAtom .wordBoundary) (cur.drop 1)
  | notWordBoundary (hpeek : cur.peek? = some 'B') :
      ReadsEscape s start cur (assertionAtom .notWordBoundary) (cur.drop 1)
  | number {c : Char} {a : Atom} {after : Cursor} (hpeek : cur.peek? = some c) (hzero : c ≠ '0')
      (hc : c.isDigit = true) (h : ReadsNumber s c cur a after) : ReadsEscape s start cur a after
  | name {a : Atom} {after : Cursor} (hpeek : cur.peek? = some 'k')
      (hnames : s.unicode = true ∨ s.hasNamedGroups = true) (h : ReadsName s (cur.drop 1) a after) :
      ReadsEscape s start cur a after
  | property {c : Char} {set : CodePointSet} {after : Cursor} (hpeek : cur.peek? = some c)
      (hc : c = 'p' ∨ c = 'P') (h : property s (c = 'P') start (cur.drop 1) = .ok (set, after)) :
      ReadsEscape s start cur ⟨.charClass (s.foldCase set), true⟩ after
  | charClass {c : Char} {set : CodePointSet} (hpeek : cur.peek? = some c)
      (h : classEscape? c = some set) :
      ReadsEscape s start cur ⟨.charClass (s.foldCase set), true⟩ (cur.drop 1)
  | char {v : Nat} {after : Cursor}
      (hnames : cur.peek? = some 'k' → ¬(s.unicode = true ∨ s.hasNamedGroups = true))
      (h : characterEscape s.unicode false start cur = .ok (v, after)) :
      ReadsEscape s start cur (literal s v) after

/-- The atom that begins with `c`. -/
inductive ReadsFrom (s : Settings) (c : Char) (cur : Cursor) : Atom → Cursor → Prop
  | atStart (hc : c = '^') : ReadsFrom s c cur (assertionAtom .atStart) (cur.drop 1)
  | atEnd (hc : c = '$') : ReadsFrom s c cur (assertionAtom .atEnd) (cur.drop 1)
  | escape {a : Atom} {after : Cursor} (hc : c = '\\')
      (h : ReadsEscape s cur.pos (cur.drop 1) a after) : ReadsFrom s c cur a after
  | dot (hc : c = '.') : ReadsFrom s c cur ⟨.charClass (.dot s.dotAll), true⟩ (cur.drop 1)
  | charClass {set : CodePointSet} {after : Cursor} (hc : c = '[')
      (h : charClass s cur.pos (cur.drop 1) = .ok (set, after)) :
      ReadsFrom s c cur ⟨.charClass set, true⟩ after
  | char (hescape : c ≠ '\\') (hclass : c ≠ '[') : ReadsFrom s c cur (literal s c.toNat) (cur.drop 1)

theorem numberedReference_eq_ok (h : numberedReference s start c cur = .ok (a, after)) :
    ReadsNumber s c cur a after := by
  unfold numberedReference at h
  split at h
  · rename_i hread
    split at h
    · rename_i hn
      cases h
      exact .group hread hn
    · split at h
      · cases h
      · split at h
        · rename_i hc
          cases h
          exact .octal hc
        · cases h
          exact .digit
  · cases h

theorem namedReference_eq_ok (h : namedReference s start cur = .ok (a, after)) :
    ReadsName s cur a after := by
  unfold namedReference at h
  split at h
  · cases h
  · rename_i hopen
    obtain ⟨⟨name, cur1⟩, hname, h⟩ := bind_eq_ok.mp h
    dsimp only at h
    split at h
    · rename_i hn
      cases h
      exact .group hopen hname hn
    · cases h

theorem atomEscape_eq_ok (h : atomEscape s start cur = .ok (a, after)) :
    ReadsEscape s start cur a after := by
  unfold atomEscape at h
  split at h
  · cases h
  · rename_i hpeek
    cases h
    exact .wordBoundary hpeek
  · rename_i hpeek
    cases h
    exact .notWordBoundary hpeek
  · rename_i c _ _ hpeek
    split at h
    · rename_i hc
      exact .number hpeek hc.1 hc.2 (numberedReference_eq_ok h)
    · split at h
      · rename_i hk
        exact .name (hk.1 ▸ hpeek) hk.2 (namedReference_eq_ok h)
      · rename_i hk
        split at h
        · rename_i hp
          obtain ⟨⟨set, cur1⟩, hset, h⟩ := bind_eq_ok.mp h
          cases h
          exact .property hpeek hp.2 hset
        · split at h
          · rename_i hset
            cases h
            exact .charClass hpeek hset
          · obtain ⟨⟨v, cur1⟩, hchar, h⟩ := bind_eq_ok.mp h
            cases h
            refine .char (fun hpeek' hnames => hk ⟨?_, hnames⟩) hchar
            exact Option.some.inj (hpeek.symm.trans hpeek')

theorem atom_eq_ok (h : atom s c cur = .ok (a, after)) : ReadsFrom s c cur a after := by
  unfold atom at h
  dsimp only at h
  split at h
  · cases h
    exact .atStart rfl
  · cases h
    exact .atEnd rfl
  · exact .escape rfl (atomEscape_eq_ok h)
  · cases h
    exact .dot rfl
  · obtain ⟨⟨set, cur1⟩, hset, h⟩ := bind_eq_ok.mp h
    cases h
    exact .charClass rfl hset
  iterate 3
    · cases h
  -- A bracket or brace that has no meaning stands for itself, unless Unicode rules forbid it.
  iterate 3
    · split at h
      · cases h
      · cases h
        exact .char (by decide) (by decide)
  · rename_i _ _ hescape _ hclass _ _ _ _ _ _
    cases h
    exact .char hescape hclass

end PatternAutomata.Pattern
