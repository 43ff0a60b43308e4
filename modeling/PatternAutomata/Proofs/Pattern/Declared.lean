import PatternAutomata.Proofs.Pattern.Desugaring
import PatternAutomata.Proofs.Pattern.Kinds
import PatternAutomata.Proofs.Pattern.References
import PatternAutomata.Proofs.Pattern.Rereading

/-!
# Declared groups are read, and references find them

A pattern is scanned for its capture groups before it is read, so that references can be resolved whose
group stands further on. `Reader.Agrees` says that the reader has so far found what the scan found, and
that references by name have become what they should. Each step keeps this, so at the end of a pattern
the scan and the reader agree.
-/

namespace PatternAutomata.Pattern

variable {s : Settings} {text u : List Char} {us : List (List Char)} {a b : Arena} {m n : Nat}
  {id : NodeId} {ids : List NodeId}

/-! ## Nodes of references -/

/-- One after the other, the places in `us` have become nodes of the arena. -/
def ResolvedIn (s : Settings) (us : List (List Char)) (a : Arena) : Prop :=
  ∃ ids : List NodeId, ids.Pairwise (· < ·) ∧
    List.Forall₂ (fun u id => id < a.kinds.size ∧ Resolved s u (a.kind id)) us ids

theorem ResolvedIn.extends (h : ResolvedIn s us a) (hab : a.Extends b) : ResolvedIn s us b := by
  obtain ⟨ids, hsorted, hall⟩ := h
  refine ⟨ids, hsorted, hall.imp fun u id hid => ⟨Nat.lt_of_lt_of_le hid.1 hab.size_le, ?_⟩⟩
  rw [hab.kind_eq id hid.1]
  exact hid.2

theorem resolvedIn_nil : ResolvedIn s [] a := ⟨[], .nil, .nil⟩

/-- The next place becomes the next node. -/
theorem ResolvedIn.snoc (h : ResolvedIn s us a) (hab : a.Extends b)
    (hlt : a.kinds.size < b.kinds.size) (hu : Resolved s u (b.kind a.kinds.size)) :
    ResolvedIn s (us ++ [u]) b := by
  obtain ⟨ids, hsorted, hall⟩ := h
  have hbefore : ∀ id ∈ ids, id < a.kinds.size := fun id hid =>
    let ⟨_, _, hlt, _⟩ := exists_of_mem_right hall hid
    hlt
  refine ⟨ids ++ [a.kinds.size], List.pairwise_append.mpr ⟨hsorted, List.pairwise_singleton .., ?_⟩, ?_⟩
  · intro id hid id' hid'
    rw [List.mem_singleton.mp hid']
    exact hbefore id hid
  · refine List.rel_append (hall.imp fun u id hid => ⟨Nat.lt_trans hid.1 hlt, ?_⟩)
      (.cons ⟨hlt, hu⟩ .nil)
    rw [hab.kind_eq id hid.1]
    exact hid.2

theorem Distinct.snoc {names : List (Option String)} {name : Option String} (h : Distinct names)
    (hname : ∀ n, name = some n → some n ∉ names) : Distinct (names ++ [name]) := by
  cases name with
  | none =>
    rwa [Distinct, List.filterMap_append, List.filterMap_cons_none rfl, List.filterMap_nil,
      List.append_nil]
  | some n =>
    rw [Distinct, List.filterMap_append]
    refine List.nodup_append.mpr ⟨h, List.nodup_singleton n, fun m hm n' hn' heq => ?_⟩
    obtain ⟨m', hm', rfl⟩ := List.mem_filterMap.mp hm
    obtain rfl := List.mem_singleton.mp hn'
    exact hname n' rfl (heq ▸ hm')

theorem Frame.exists_grouping {f : Frame} (h : ∀ n, f.opening = .capture n → n = f.firstGroup) :
    ∃ g : Source.Grouping, f.opening = g.opening f.firstGroup := by
  cases hopening : f.opening with
  | plain => exact ⟨.plain, rfl⟩
  | capture number => exact ⟨.capture, congrArg _ (h number hopening)⟩
  | look direction negated => exact ⟨.look direction negated, rfl⟩

namespace Reader

variable {r p q : Reader}

/-! ## Steps that number no group -/

/-- Nothing is read on the way from the first reader to the second one, and nodes are only added. -/
structure Grows (r q : Reader) : Prop where
  cursor : q.cursor = r.cursor
  names : q.names = r.names
  ext : r.arena.Extends q.arena

/-- What is read on the way from the first reader to the second one, at least `n` characters, means
nothing to scans. No group is numbered, and nodes are only added. -/
structure Passes (n : Nat) (r q : Reader) : Prop where
  skips : Skips n false r.cursor.rest false q.cursor.rest
  names : q.names = r.names
  ext : r.arena.Extends q.arena

theorem Sound.ordered (hr : r.Sound) : r.arena.Ordered := hr.sound.child_lt

theorem grows_endAlternative (hr : r.Sound) (h : r.endAlternative = .ok q) : r.Grows q := by
  obtain ⟨id, b, hgrow, rfl⟩ := endAlternative_eq_ok h
  have hterms : Grow.AllDrawn (r.level.terms.reverse.map r.arena.outline) r.level.terms.reverse
      r.arena := ⟨fun c hc => (hr.level.terms c (List.mem_reverse.mp hc)).lt, rfl⟩
  obtain ⟨hext, -⟩ := Grow.ensures_sequence hr.ordered hterms id b hgrow
  exact ⟨rfl, rfl, hext⟩

theorem passes_endTerm {quantifiable : Bool} {firstGroup : Nat} (hr : r.arena.Ordered)
    (hid : id < r.arena.kinds.size) (h : endTerm s id quantifiable firstGroup r = .ok q) :
    Passes 0 r q := by
  cases endTerm_eq_ok h with
  | once hread => exact ⟨skips_quantifier hread false, rfl, .refl _⟩
  | @quantified cursor quant ids b hread hquantifiable hgrow =>
    obtain ⟨hext, -⟩ := ensures_quantify hr ⟨hid, rfl⟩ quant ids b hgrow
    exact ⟨skips_quantifier hread false, rfl, hext⟩

theorem passes_bar (hr : r.Sound) (hrest : r.cursor.rest = '|' :: u)
    (h : r.endAlternative = .ok p) : Passes 1 r { p with cursor := p.cursor.drop 1 } := by
  obtain ⟨hcursor, hnames, hext⟩ := grows_endAlternative hr h
  refine ⟨?_, hnames, hext⟩
  rw [hcursor]
  exact skips_drop_one hrest (by decide) false

theorem passes_closeGroup (hr : r.Sound) (hrest : r.cursor.rest = ')' :: u)
    (h : r.closeGroup s = .ok q) : Passes 1 r q := by
  obtain ⟨r1, f, frames, id, quantifiable, b, h1, hframes, hgrow, h⟩ := closeGroup_eq_ok h
  have hgrows1 := grows_endAlternative hr h1
  obtain ⟨hr1, -⟩ := sound_endAlternative hr h1
  have hfits := hr1.frames
  rw [hframes] at hfits
  obtain ⟨g, hopening⟩ := Frame.exists_grouping hfits.2.2.1
  have halternatives : Grow.AllDrawn (r1.level.alternatives.reverse.map r1.arena.outline)
      r1.level.alternatives.reverse r1.arena :=
    ⟨fun c hc => (hr1.level.alternatives c (List.mem_reverse.mp hc)).lt, rfl⟩
  obtain ⟨hext, hordered, hdrawn, -⟩ :=
    ensures_groupNode hr1.ordered halternatives hopening (id, quantifiable) b hgrow
  have hpass := passes_endTerm hordered hdrawn.1 h
  refine ⟨?_, hpass.names.trans hgrows1.names, (hgrows1.ext.trans hext).trans hpass.ext⟩
  have hskip := hpass.skips
  rw [hgrows1.cursor] at hskip
  exact (skips_drop_one hrest (by decide) false).trans hskip

theorem passes_openOther {opening : Opening} {cursor : Cursor}
    (hskip : Skips n false r.cursor.rest false cursor.rest) :
    Passes n r (r.openOther opening cursor) := ⟨hskip, rfl, .refl _⟩

/-! ## Agreement -/

/-- The scan of the whole text has found the groups that are numbered already, and then those that a scan
from here on finds. So it is with the references by name, and those before have become nodes. -/
structure Agrees (s : Settings) (text : List Char) (r : Reader) : Prop where
  declared : declaredGroups text = r.names.toList ++ declaredFrom false r.cursor.rest
  distinct : Distinct r.names.toList
  references : ∃ us, referencesFrom false text = us ++ referencesFrom false r.cursor.rest ∧
    ResolvedIn s us r.arena

theorem Passes.agrees (h : Passes n r q) (hr : r.Agrees s text) : q.Agrees s text where
  declared := by rw [hr.declared, h.names, h.skips.declared]
  distinct := h.names ▸ hr.distinct
  references := by
    obtain ⟨us, hus, hresolved⟩ := hr.references
    exact ⟨us, h.skips.references ▸ hus, hresolved.extends h.ext⟩

/-! ## Parentheses that open -/

/-- Scans find a capture group with the given name, if any, at `u`, and go on at `v`. -/
structure Opens (name : Option String) (u v : List Char) : Prop where
  declared : declaredFrom false u = name :: declaredFrom false v
  references : referencesFrom false u = referencesFrom false v
  length : v.length < u.length

theorem opens_unnamed (hu : ∀ v, u ≠ '?' :: v) : Opens none ('(' :: u) u := by
  refine ⟨?_, rfl, Nat.lt_succ_self _⟩
  cases u with
  | nil => rfl
  | cons d u =>
    have hd : d ≠ '?' := fun h => hu u (h ▸ rfl)
    rw [declaredFrom, if_neg Bool.false_ne_true]
    all_goals simp [hd]

theorem declaredFrom_named (hahead : ∀ v, u ≠ '=' :: v) (hnot : ∀ v, u ≠ '!' :: v) :
    declaredFrom false ('(' :: '?' :: '<' :: u) =
      some (String.ofList (u.takeWhile (· != '>'))) :: declaredFrom false u := by
  rw [declaredFrom, if_neg Bool.false_ne_true]
  · rfl
  · exact hahead
  · exact hnot

theorem opens_named {d : Char} {ds v : List Char} (hstart : isNameStart d = true)
    (hpart : ∀ e ∈ d :: ds, isNamePart e = true) :
    Opens (some (String.ofList (d :: ds))) ('(' :: '?' :: '<' :: (d :: ds ++ '>' :: v)) v := by
  have hsign : ∀ e : Char, e.toNat < 0x41 → e ≠ '$' → ∀ w, d :: ds ++ '>' :: v ≠ e :: w := by
    intro e he hne w heq
    rw [(List.cons.inj heq).1, isNameStart_eq_false he hne] at hstart
    cases hstart
  have hname : (d :: ds ++ '>' :: v).takeWhile (· != '>') = d :: ds :=
    takeWhile_append_of_avoids
      (fun e he => bne_iff_ne.mpr fun heq => by
        cases isNamePart_close.symm.trans (heq ▸ hpart e he)) (avoids_cons rfl)
  have hskip : Skips 0 false (d :: ds ++ '>' :: v) false v :=
    ((skips_append (fun e he => quiet_of_isNamePart (hpart e he)) false _).trans
      (skips_quiet (by decide) false v)).mono (Nat.zero_le _)
  refine ⟨?_, hskip.references, ?_⟩
  · rw [declaredFrom_named (hsign '=' (by decide) (by decide)) (hsign '!' (by decide) (by decide)),
      hname, hskip.declared]
  · have := hskip.length
    simp only [List.length_cons] at this ⊢
    omega

theorem agrees_openCapture {name : Option String} {cursor : Cursor} (hr : r.Agrees s text)
    (hopens : Opens name r.cursor.rest cursor.rest) (h : openCapture s name cursor r = .ok q) :
    q.Agrees s text ∧ q.cursor.rest.length < r.cursor.rest.length := by
  obtain ⟨hfresh, rfl⟩ := openCapture_eq_ok h
  refine ⟨⟨?_, ?_, ?_⟩, hopens.length⟩
  · rw [hr.declared, hopens.declared, Array.toList_push, List.append_assoc]
    rfl
  · rw [Array.toList_push]
    exact Distinct.snoc hr.distinct fun n hn hmem =>
      hfresh n hn (Array.mem_toList_iff.mp hmem)
  · obtain ⟨us, hus, hresolved⟩ := hr.references
    exact ⟨us, hopens.references ▸ hus, hresolved⟩

/-- No scan finds a group that does not capture. -/
theorem skips_otherSign {sign : List Char} (hsign : sign ∈ otherSigns) (u : List Char) :
    Skips 1 false ('(' :: (sign ++ u)) false u := by
  simp only [otherSigns, List.mem_cons, List.not_mem_nil, or_false] at hsign
  rcases hsign with rfl | rfl | rfl | rfl | rfl
  all_goals exact ⟨rfl, rfl, by simp⟩

theorem agrees_openGroup (hr : r.Agrees s text) (hrest : r.cursor.rest = '(' :: u)
    (h : OpensGroup s r q) :
    q.Agrees s text ∧ q.cursor.rest.length < r.cursor.rest.length := by
  have hdrop := rest_drop_one hrest
  cases h with
  | @other opening v sign hsign hafter hopening =>
    have hskip : Skips 1 false r.cursor.rest false ((r.cursor.drop 1).drop sign.length).rest := by
      show Skips 1 false r.cursor.rest false ((r.cursor.drop 1).rest.drop sign.length)
      rw [hrest, ← hdrop, hafter, List.drop_left]
      exact skips_otherSign hsign v
    exact ⟨(passes_openOther hskip).agrees hr, hskip.length⟩
  | @named v name cursor _ hafter hname h =>
    obtain ⟨d, ds, rfl, htext, hstart, hpart⟩ := rest_of_groupName hname
    rw [Cursor.drop, hafter] at htext
    obtain rfl : v = d :: ds ++ '>' :: cursor.rest := htext
    refine agrees_openCapture hr ?_ h
    rw [hrest, ← hdrop, hafter]
    exact opens_named hstart hpart
  | unnamed hu h =>
    refine agrees_openCapture hr ?_ h
    rw [hrest, ← hdrop]
    exact opens_unnamed hu

/-! ## Steps -/

/-- An atom becomes the next node, also if it is a reference by name. -/
theorem agrees_atom {c : Char} {t : Atom} {cursor : Cursor} {firstGroup : Nat}
    (hs : NamesAreWords s.properties) (hsound : r.Sound) (hr : r.Agrees s text)
    (hrest : r.cursor.rest = c :: u) (hc : c ≠ '(') (hread : atom s c r.cursor = .ok (t, cursor))
    (hgrow : (Grow.add t.kind).run r.arena = .ok (id, b))
    (h : endTerm s id t.quantifiable firstGroup { r with cursor, arena := b } = .ok q) :
    q.Agrees s text ∧ q.cursor.rest.length < r.cursor.rest.length := by
  have hmade : Made r.arena b [id] r.pending ∧ b.IsTerm 0 0 id :=
    made_atom (isAtom_atom hread) hsound.sound hgrow
  obtain ⟨hid, hpush⟩ := Grow.add_eq_ok hgrow
  obtain ⟨hext, hkind⟩ := Arena.extends_push hpush
  have hpass := passes_endTerm (r := ⟨cursor, b, r.names, r.level, r.frames⟩)
    hmade.1.sound.child_lt hmade.2.lt h
  rcases scans_atom hs hrest hc hread with hskip | hrefers
  · have hall : Passes (1 + 0) r q := ⟨hskip.trans hpass.skips, hpass.names, hext.trans hpass.ext⟩
    exact ⟨hall.agrees hr, hall.skips.length⟩
  · refine ⟨⟨?_, hpass.names ▸ hr.distinct, ?_⟩,
      Nat.lt_of_le_of_lt hpass.skips.length hrefers.length⟩
    · rw [hr.declared, hpass.names, hrefers.declared, hpass.skips.declared]
    · obtain ⟨us, hus, hresolved⟩ := hr.references
      refine ⟨us ++ [r.cursor.rest], ?_, (hresolved.snoc hext ?_ (hkind ▸ hrefers.resolved)).extends
        hpass.ext⟩
      · rw [hus, hrefers.references, hpass.skips.references, List.append_assoc]
        rfl
      · exact hid ▸ hmade.2.lt

theorem agrees_step {c : Char} (hs : NamesAreWords s.properties) (hsound : r.Sound)
    (hr : r.Agrees s text) (hrest : r.cursor.rest = c :: u) (h : r.step s c = .ok q) :
    q.Agrees s text ∧ q.cursor.rest.length < r.cursor.rest.length := by
  cases step_eq_ok h with
  | bar hc h1 =>
    subst hc
    have hpass := passes_bar hsound hrest h1
    exact ⟨hpass.agrees hr, hpass.skips.length⟩
  | openGroup hc hopen =>
    subst hc
    exact agrees_openGroup hr hrest hopen
  | closeGroup hc hclose =>
    subst hc
    have hpass := passes_closeGroup hsound hrest hclose
    exact ⟨hpass.agrees hr, hpass.skips.length⟩
  | atom hc hread hgrow hend => exact agrees_atom hs hsound hr hrest hc hread hgrow hend

theorem run_of_step {c : Char} (n : Nat) (hc : r.cursor.peek? = some c) (h : r.step s c = .ok q) :
    run s (n + 1) r = run s n q := by
  rw [run, hc]
  dsimp only
  rw [h]
  rfl

theorem agrees_run (hs : NamesAreWords s.properties) (fuel : Nat) (hsound : r.Sound)
    (hr : r.Agrees s text) (hfuel : r.cursor.rest.length ≤ fuel) (h : run s fuel r = .ok q) :
    q.Sound ∧ q.Agrees s text ∧ q.cursor.rest = [] := by
  induction fuel generalizing r with
  | zero =>
    cases h
    exact ⟨hsound, hr, List.length_eq_zero_iff.mp (Nat.le_zero.mp hfuel)⟩
  | succ fuel ih =>
    unfold run at h
    split at h
    · rename_i hpeek
      cases h
      exact ⟨hsound, hr, List.head?_eq_none_iff.mp hpeek⟩
    · rename_i c hpeek
      obtain ⟨u, hrest⟩ := List.head?_eq_some_iff.mp hpeek
      obtain ⟨r1, h1, h⟩ := bind_eq_ok.mp h
      obtain ⟨hr1, hlt⟩ := agrees_step hs hsound hr hrest h1
      exact ih (sound_step hsound h1) hr1 (Nat.le_of_lt_succ (Nat.lt_of_lt_of_le hlt hfuel)) h

/-- At the end the root and the node that ends a match are added. -/
theorem agrees_finish {t : Tree} (hsound : r.Sound) (hr : r.Agrees s text)
    (hend : r.cursor.rest = []) (h : r.finish = .ok t) :
    declaredGroups text = t.groupNames.toList ∧ Distinct t.groupNames.toList ∧
      ∃ ids : List NodeId, ids.Pairwise (· < ·) ∧
        List.Forall₂ (fun u id => id < t.size ∧ Resolved s u (t.kind id))
          (referencesFrom false text) ids := by
  obtain ⟨p, root, matchFound, b, b', hp, -, hroot, hfound, rfl⟩ := finish_eq_ok h
  obtain ⟨-, hnames, hext⟩ := grows_endAlternative hsound hp
  obtain ⟨-, hroot⟩ := Grow.add_eq_ok hroot
  obtain ⟨-, hfound⟩ := Grow.add_eq_ok hfound
  have hall : r.arena.Extends b' :=
    (hext.trans (Arena.extends_push hroot).1).trans (Arena.extends_push hfound).1
  obtain ⟨us, hus, hresolved⟩ := hr.references
  rw [hend, referencesFrom, List.append_nil] at hus
  refine ⟨?_, hnames ▸ hr.distinct, hus ▸ hresolved.extends hall⟩
  rw [hr.declared, hend, declaredFrom, List.append_nil]
  exact congrArg Array.toList hnames.symm

end Reader

/-! ## Patterns -/

section Parse

variable {pattern : String} {flags : Flags} {budget : Budget} {properties : PropertyLookup} {t : Tree}

theorem exists_agrees_of_parse (hproperties : NamesAreWords properties)
    (h : parse pattern flags budget properties = .ok t) :
    ∃ r : Reader, r.Sound ∧ r.Agrees (Settings.new flags budget properties
      (declaredGroups pattern.toList)) pattern.toList ∧ r.cursor.rest = [] ∧ r.finish = .ok t := by
  obtain ⟨r, hr, h⟩ := bind_eq_ok.mp h
  have hstart : Reader.Agrees
      (Settings.new flags budget properties (declaredGroups pattern.toList)) pattern.toList
      { cursor := .ofString pattern, arena := { limit := budget.maxTreeSize } } :=
    ⟨rfl, .nil, [], rfl, resolvedIn_nil⟩
  obtain ⟨hsound, hagrees, hend⟩ :=
    Reader.agrees_run hproperties _ (Reader.sound_start _ _) hstart (Nat.le_refl _) hr
  exact ⟨r, hsound, hagrees, hend, h⟩

end Parse

/-- The characters of the name are not looked up in the tables of letters. -/
theorem isOk_parse_forward :
    (parse "\\k<_>(?<_>a)[(\\]]\\c\\1" {} {} Property.standard).isOk = true := by
  let name : Source.Name := ⟨'_', [], rfl, List.all_eq_true.mp rfl⟩
  let s := Settings.new {} {} Property.standard [none, some "_"]
  let r : Reader := { cursor := .ofString "\\k<_>(?<_>a)[(\\]]\\c\\1", arena := { limit := 4000 } }
  let p : Reader := ⟨⟨5, "(?<_>a)[(\\]]\\c\\1".toList⟩, ⟨4000, #[.backReference 1]⟩, #[none],
    ⟨[], [0]⟩, []⟩
  let q : Reader := ⟨⟨10, "a)[(\\]]\\c\\1".toList⟩, p.arena, #[none, some "_"], {},
    [⟨.capture 1, 5, 1, p.level⟩]⟩
  have hreference : r.step s '\\' = .ok p := by
    have hread : atom s '\\' r.cursor = .ok (⟨.backReference 1, true⟩, p.cursor) := by
      show groupName ⟨3, name.first :: name.rest ++ '>' :: "(?<_>a)[(\\]]\\c\\1".toList⟩ >>= _ = _
      rw [groupName_eq]
      rfl
    show Reader.ofReading (atom s '\\' r.cursor) >>= _ = _
    rw [hread]
    rfl
  have hgroup : p.step s '(' = .ok q := by
    have hnew : p.names.contains (some "_") = false := by decide +kernel
    show Reader.ofReading (groupName ⟨8, name.first :: name.rest ++ '>' :: "a)[(\\]]\\c\\1".toList⟩)
      >>= _ = _
    rw [groupName_eq]
    show Reader.openCapture s (some "_") q.cursor p = _
    simp only [Reader.openCapture, Option.filter_some, hnew]
    rfl
  have hrun : Reader.run s 21 r = Reader.run s 19 q :=
    (Reader.run_of_step 20 rfl hreference).trans (Reader.run_of_step 19 rfl hgroup)
  show (Reader.run s 21 r >>= Reader.finish).isOk = true
  rw [hrun]
  decide +kernel

end PatternAutomata.Pattern
