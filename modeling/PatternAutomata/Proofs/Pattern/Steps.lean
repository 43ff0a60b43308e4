import PatternAutomata.Proofs.Pattern.Atoms
import PatternAutomata.Proofs.Tree.Copying

/-!
# What the steps of the reader do

Each part of the reader that can fail is looked at once here: if it succeeds, then with the reader that
is told. So an invariant of the reader needs a case for each construct, and a run keeps what each step
keeps.
-/

namespace PatternAutomata.Pattern.Reader

variable {s : Settings} {r r' : Reader} {id : NodeId} {quantifiable : Bool} {firstGroup : Nat} {c : Char}

theorem eq_ok_of_ofReading {α : Type} {x : Except SyntaxError (α × Cursor)} {found : α × Cursor}
    (h : ofReading x = .ok found) : x = .ok found := by
  cases x with
  | ok v =>
    cases h
    rfl
  | error e => cases h

theorem grow_eq_ok {α : Type} {g : Grow α} {v : α} (h : r.grow g = .ok (v, r')) :
    ∃ b, g.run r.arena = .ok (v, b) ∧ r' = { r with arena := b } := by
  obtain ⟨cursor, arena, names, level, frames⟩ := r
  simp only [grow] at h
  split at h
  · rename_i v' b hg
    cases h
    exact ⟨b, hg, rfl⟩
  · cases h

/-! ## Terms and alternatives -/

theorem endAlternative_eq_ok (h : r.endAlternative = .ok r') :
    ∃ id b, (Grow.sequence r.level.terms.reverse).run r.arena = .ok (id, b) ∧
      r' = { r with arena := b, level := { alternatives := id :: r.level.alternatives } } := by
  obtain ⟨⟨id, r1⟩, hg, h⟩ := bind_eq_ok.mp h
  obtain ⟨b, hgrow, rfl⟩ := grow_eq_ok hg
  cases h
  exact ⟨id, b, hgrow, rfl⟩

/-- The term `id` goes to the terms of its level, or what its quantifier makes of it does. -/
inductive EndsTerm (s : Settings) (id : NodeId) (quantifiable : Bool) (firstGroup : Nat) (r : Reader) :
    Reader → Prop
  | once {cursor : Cursor} (hread : quantifier s r.cursor = .ok (none, cursor)) :
      EndsTerm s id quantifiable firstGroup r
        { r with cursor, level := { r.level with terms := id :: r.level.terms } }
  | quantified {cursor : Cursor} {q : Quantifier} {ids : List NodeId} {b : Arena}
      (hread : quantifier s r.cursor = .ok (some q, cursor)) (hquantifiable : quantifiable = true)
      (hgrow : (quantify q id firstGroup r.nextGroup).run r.arena = .ok (ids, b)) :
      EndsTerm s id quantifiable firstGroup r
        { r with cursor, arena := b, level := { r.level with terms := ids.reverse ++ r.level.terms } }

theorem endTerm_eq_ok (h : endTerm s id quantifiable firstGroup r = .ok r') :
    EndsTerm s id quantifiable firstGroup r r' := by
  obtain ⟨⟨q?, cursor⟩, hread, h⟩ := bind_eq_ok.mp h
  cases q? with
  | none =>
    cases h
    exact .once hread
  | some q =>
    dsimp only at h
    split at h
    · rename_i hquantifiable
      obtain ⟨⟨ids, r1⟩, hg, h⟩ := bind_eq_ok.mp h
      obtain ⟨b, hgrow, rfl⟩ := grow_eq_ok hg
      cases h
      exact .quantified hread hquantifiable hgrow
    · cases h

/-! ## Parentheses -/

/-- A group that captures gets the next number, and a name that no group had before. -/
theorem openCapture_eq_ok {name : Option String} {cursor : Cursor}
    (h : openCapture s name cursor r = .ok r') :
    (∀ n, name = some n → some n ∉ r.names) ∧
      r' = { r with
        cursor
        names := r.names.push name
        level := {}
        frames := ⟨.capture r.nextGroup, r.cursor.pos, r.nextGroup, r.level⟩ :: r.frames } := by
  unfold openCapture at h
  dsimp only at h
  split at h
  · cases h
  · split at h
    · cases h
    · rename_i hfilter
      cases h
      refine ⟨fun n hn hmem => ?_, rfl⟩
      rw [hn, Option.filter_some, if_pos (Array.contains_iff_mem.mpr hmem)] at hfilter
      cases hfilter

/-- What tells the kind of a group that does not capture. -/
def otherSigns : List (List Char) :=
  [['?', '='], ['?', '!'], ['?', '<', '='], ['?', '<', '!'], ['?', ':']]

/-- An open parenthesis is taken together with the sign after it. -/
inductive OpensGroup (s : Settings) (r : Reader) : Reader → Prop
  | other {opening : Opening} {u : List Char} (sign : List Char) (hsign : sign ∈ otherSigns)
      (hrest : (r.cursor.drop 1).rest = sign ++ u) (hopening : ∀ n, opening ≠ .capture n) :
      OpensGroup s r (r.openOther opening ((r.cursor.drop 1).drop sign.length))
  | named {u : List Char} {name : String} {cursor : Cursor} {r' : Reader}
      (hrest : (r.cursor.drop 1).rest = '?' :: '<' :: u)
      (hname : groupName ((r.cursor.drop 1).drop 2) = .ok (name, cursor))
      (h : openCapture s (some name) cursor r = .ok r') : OpensGroup s r r'
  | unnamed {r' : Reader} (hrest : ∀ u, (r.cursor.drop 1).rest ≠ '?' :: u)
      (h : openCapture s none (r.cursor.drop 1) r = .ok r') : OpensGroup s r r'

theorem openGroup_eq_ok (h : r.openGroup s = .ok r') : OpensGroup s r r' := by
  unfold openGroup at h
  dsimp only at h
  split at h
  · cases h
  · split at h
    · rename_i hrest
      cases h
      exact .other ['?', '='] (by decide) hrest nofun
    · rename_i hrest
      cases h
      exact .other ['?', '!'] (by decide) hrest nofun
    · rename_i hrest
      cases h
      exact .other ['?', '<', '='] (by decide) hrest nofun
    · rename_i hrest
      cases h
      exact .other ['?', '<', '!'] (by decide) hrest nofun
    · rename_i hrest
      cases h
      exact .other ['?', ':'] (by decide) hrest nofun
    · rename_i hrest
      obtain ⟨⟨name, cursor⟩, hname, h⟩ := bind_eq_ok.mp h
      exact .named hrest (eq_ok_of_ofReading hname) h
    · cases h
    · rename_i hrest
      exact .unnamed hrest h

theorem closeGroup_eq_ok (h : r.closeGroup s = .ok r') :
    ∃ r1 f frames id quantifiable b, r.endAlternative = .ok r1 ∧ r1.frames = f :: frames ∧
      (groupNode s f r1.level.alternatives.reverse r1.nextGroup).run r1.arena =
        .ok ((id, quantifiable), b) ∧
      endTerm s id quantifiable f.firstGroup
        { r1 with cursor := r1.cursor.drop 1, arena := b, level := f.outer, frames } = .ok r' := by
  obtain ⟨r1, h1, h⟩ := bind_eq_ok.mp h
  split at h
  · cases h
  · rename_i f frames hframes
    obtain ⟨⟨⟨id, quantifiable⟩, r2⟩, hg, h⟩ := bind_eq_ok.mp h
    obtain ⟨b, hgrow, rfl⟩ := grow_eq_ok hg
    exact ⟨r1, f, frames, id, quantifiable, b, h1, hframes, hgrow, h⟩

/-! ## Steps and runs -/

/-- A step takes a bar, a parenthesis, or an atom with its quantifier. -/
inductive Steps (s : Settings) (c : Char) (r : Reader) : Reader → Prop
  | bar {r1 : Reader} (hc : c = '|') (h : r.endAlternative = .ok r1) :
      Steps s c r { r1 with cursor := r1.cursor.drop 1 }
  | openGroup {r' : Reader} (hc : c = '(') (h : OpensGroup s r r') : Steps s c r r'
  | closeGroup {r' : Reader} (hc : c = ')') (h : r.closeGroup s = .ok r') : Steps s c r r'
  | atom {a : Atom} {cursor : Cursor} {id : NodeId} {b : Arena} {r' : Reader} (hc : c ≠ '(')
      (hread : atom s c r.cursor = .ok (a, cursor))
      (hgrow : (Grow.add a.kind).run r.arena = .ok (id, b))
      (h : endTerm s id a.quantifiable r.nextGroup { r with cursor, arena := b } = .ok r') :
      Steps s c r r'

theorem step_eq_ok (h : r.step s c = .ok r') : Steps s c r r' := by
  unfold step at h
  split at h
  · obtain ⟨r1, h1, h⟩ := bind_eq_ok.mp h
    cases h
    exact .bar rfl h1
  · exact .openGroup rfl (openGroup_eq_ok h)
  · exact .closeGroup rfl h
  · rename_i _ hopen _
    obtain ⟨⟨a, cursor⟩, hread, h⟩ := bind_eq_ok.mp h
    obtain ⟨⟨id, r1⟩, hg, h⟩ := bind_eq_ok.mp h
    obtain ⟨b, hgrow, rfl⟩ := grow_eq_ok hg
    exact .atom hopen (eq_ok_of_ofReading hread) hgrow h

/-- What every step keeps, a run keeps. -/
theorem run_keeps {P : Reader → Prop}
    (hstep : ∀ {c : Char} {r r' : Reader}, r.cursor.peek? = some c → P r → r.step s c = .ok r' → P r')
    (fuel : Nat) (hr : P r) (h : run s fuel r = .ok r') : P r' := by
  induction fuel generalizing r with
  | zero =>
    cases h
    exact hr
  | succ fuel ih =>
    unfold run at h
    split at h
    · cases h
      exact hr
    · rename_i hpeek
      obtain ⟨r1, h1, h⟩ := bind_eq_ok.mp h
      exact ih (hstep hpeek hr h1) h

/-- At the end the root is put above the alternatives of the pattern, and the node that ends a match
comes last. -/
theorem finish_eq_ok {t : Tree} (h : r.finish = .ok t) :
    ∃ r1 root matchFound b b', r.endAlternative = .ok r1 ∧ r1.frames = [] ∧
      (Grow.add (.group ⟨r1.level.alternatives.reverse, .capture 0, 1, r1.nextGroup⟩)).run r1.arena =
        .ok (root, b) ∧
      (Grow.add .matchFound).run b = .ok (matchFound, b') ∧
      t = ⟨b'.kinds, Tree.placesOf b'.kinds, root, matchFound, r1.names⟩ := by
  obtain ⟨r1, h1, h⟩ := bind_eq_ok.mp h
  split at h
  · cases h
  · rename_i hframes
    obtain ⟨⟨root, r2⟩, hg, h⟩ := bind_eq_ok.mp h
    obtain ⟨b, hroot, rfl⟩ := grow_eq_ok hg
    dsimp only at h
    split at h
    · rename_i t' ht
      cases h
      obtain ⟨⟨matchFound, b'⟩, hfound, ht⟩ := bind_eq_ok.mp ht
      cases ht
      exact ⟨r1, root, matchFound, b, b', h1, hframes, hroot, hfound, rfl⟩
    · cases h

end PatternAutomata.Pattern.Reader
