import PatternAutomata.Proofs.Pattern.Quantifier
import PatternAutomata.Proofs.Pattern.Steps
import PatternAutomata.Proofs.Tree.Places

/-!
# What is read has the shape of a tree

While a pattern is read, the nodes of the open groups wait. The captures read inside an open group
are numbered from the first number there to before the next free one.
-/

namespace PatternAutomata.Pattern

variable {a b : Arena} {s : Settings} {id : NodeId} {ids rest : List NodeId} {lo hi lo' hi' : Nat}

/-! ## Atoms -/

/-- Whether a node of the kind stands for a single step, with nothing below. -/
def isAtom : NodeKind → Bool
  | .charClass _ | .backReference _ | .assertion _ => true
  | _ => false

theorem isAtom_atom {c : Char} {cur cur' : Cursor} {t : Atom}
    (h : atom s c cur = .ok (t, cur')) : isAtom t.kind = true := by
  cases atom_eq_ok h with
  | escape hc h =>
    cases h with
    | number hpeek hzero hc h => cases h <;> rfl
    | name hpeek hnames h =>
      cases h
      rfl
    | _ => rfl
  | _ => rfl

/-- A node with nothing below is a term, and has no captures. -/
theorem made_atom {k : NodeKind} (hk : isAtom k = true) (hs : a.Sound rest)
    (h : (Grow.add k).run a = .ok (id, b)) : Made a b [id] rest ∧ b.IsTerm lo hi id := by
  have hleaf : k.children = [] ∧ k.WellShaped a.kind ∧ k.isTerm = true ∧ k.FitsIn lo hi := by
    cases k with
    | group g => cases hk
    | look l => cases hk
    | sequence terms => cases hk
    | matchFound => cases hk
    | _ => exact ⟨rfl, trivial, rfl, trivial⟩
  obtain ⟨hchildren, hshape, hterm, hfits⟩ := hleaf
  obtain ⟨hmade, hkind, hlt⟩ := made_leaf hs hchildren hshape h
  refine ⟨hmade, hlt, hkind ▸ hterm, .node (hkind ▸ hfits) fun c hc => ?_⟩
  rw [hkind, hchildren] at hc
  cases hc

/-! ## Open groups -/

def Level.pending (l : Level) : List NodeId := l.terms ++ l.alternatives

/-- The captures of a level lie in the range, and its terms are in order. -/
structure Level.Fits (a : Arena) (lo hi : Nat) (l : Level) : Prop where
  terms : ∀ id ∈ l.terms, a.IsTerm lo hi id
  order : l.terms.reverse.Pairwise (InOrder a.kind)
  alternatives : ∀ id ∈ l.alternatives, a.IsAlternative lo hi id

theorem Level.Fits.extends {l : Level} (h : l.Fits a lo hi) (hs : a.Sound rest)
    (hab : a.Extends b) : l.Fits b lo hi where
  terms id hid := (h.terms id hid).extends hs hab
  order := Arena.inOrder_extends hs hab (fun c hc => (h.terms c (List.mem_reverse.mp hc)).lt) h.order
  alternatives id hid := (h.alternatives id hid).extends hs hab

theorem Level.Fits.mono {l : Level} (h : l.Fits a lo hi) (hlo : lo' ≤ lo) (hhi : hi ≤ hi') :
    l.Fits a lo' hi' :=
  ⟨fun id hid => (h.terms id hid).mono hlo hhi, h.order,
    fun id hid => (h.alternatives id hid).mono hlo hhi⟩

theorem Level.fits_empty : ({} : Level).Fits a lo hi := ⟨by simp, .nil, by simp⟩

/-- More terms may follow in a level that has captures before theirs only. -/
theorem Level.Fits.order_append {l : Level} {m : Nat} (h : l.Fits a lo m)
    (hids : ∀ id ∈ ids, a.IsTerm m hi id) (horder : ids.Pairwise (InOrder a.kind)) :
    (l.terms.reverse ++ ids).Pairwise (InOrder a.kind) := by
  refine List.pairwise_append.mpr ⟨h.order, horder, fun c hc c' hc' => ?_⟩
  exact ⟨lo, m, (h.terms c (List.mem_reverse.mp hc)).within, .inl ⟨hi, (hids c' hc').within⟩⟩

/-- The number of the first capture group inside the parentheses. -/
def Frame.firstInside (f : Frame) : Nat :=
  match f.opening with
  | .capture number => number + 1
  | _ => f.firstGroup

def firstInside : List Frame → Nat
  | [] => 1
  | f :: _ => f.firstInside

def FramesFit (a : Arena) : List Frame → Prop
  | [] => True
  | f :: frames => f.outer.Fits a (firstInside frames) f.firstGroup ∧
      firstInside frames ≤ f.firstGroup ∧ (∀ n, f.opening = .capture n → n = f.firstGroup) ∧
      FramesFit a frames

theorem FramesFit.extends {frames : List Frame} (h : FramesFit a frames) (hs : a.Sound rest)
    (hab : a.Extends b) : FramesFit b frames := by
  induction frames with
  | nil => trivial
  | cons f frames ih => exact ⟨h.1.extends hs hab, h.2.1, h.2.2.1, ih h.2.2.2⟩

theorem Frame.firstGroup_le {f : Frame} (h : ∀ n, f.opening = .capture n → n = f.firstGroup) :
    f.firstGroup ≤ f.firstInside := by
  unfold firstInside
  split
  · rename_i n heq
    rw [← h n heq]
    exact Nat.le_succ n
  · exact Nat.le_refl _

namespace Reader

variable {r r' : Reader}

def pending (r : Reader) : List NodeId := r.level.pending ++ r.frames.flatMap (·.outer.pending)

structure Sound (r : Reader) : Prop where
  sound : r.arena.Sound r.pending
  level : r.level.Fits r.arena (firstInside r.frames) r.nextGroup
  frames : FramesFit r.arena r.frames
  first_le : firstInside r.frames ≤ r.nextGroup

theorem sound_start (cursor : Cursor) (limit : Nat) : Sound { cursor, arena := { limit } } :=
  ⟨⟨fun id c hc => by simp [Arena.kind, NodeKind.children] at hc, fun id => by
    simp [Arena.kind, NodeKind.WellShaped], by simp [pending, Level.pending], by
    simp [pending, Level.pending]⟩, Level.fits_empty, trivial, Nat.le_refl _⟩

/-! ## Steps -/

theorem sound_endAlternative (hr : r.Sound) (h : r.endAlternative = .ok r') :
    r'.Sound ∧ r'.level.terms = [] := by
  obtain ⟨id, b, hgrow, rfl⟩ := endAlternative_eq_ok h
  have hs : r.arena.Sound (r.level.terms.reverse ++
      (r.level.alternatives ++ r.frames.flatMap (·.outer.pending))) := by
    refine hr.sound.perm ?_
    rw [pending, Level.pending, List.append_assoc]
    exact (List.reverse_perm _).symm.append_right _
  obtain ⟨hmade, hid, -⟩ := made_sequence hs (fun c hc => hr.level.terms c (by simpa using hc))
    hr.level.order hgrow
  refine ⟨⟨hmade.sound, ⟨by simp, .nil, fun c hc => ?_⟩, hr.frames.extends hs hmade.ext, hr.first_le⟩,
    rfl⟩
  rcases List.mem_cons.mp hc with rfl | hc
  · exact hid
  · exact (hr.level.alternatives c hc).extends hs hmade.ext

/-- A term that has been read, and may be quantified, goes to the terms of its level. The captures in
these come before its own. -/
theorem sound_endTerm {quantifiable : Bool} {firstGroup : Nat} (hr : r.Sound)
    (hs : r.arena.Sound (id :: r.pending)) (hid : r.arena.IsTerm firstGroup r.nextGroup id)
    (hlevel : r.level.Fits r.arena (firstInside r.frames) firstGroup)
    (hfirst : firstInside r.frames ≤ firstGroup)
    (h : endTerm s id quantifiable firstGroup r = .ok r') : r'.Sound := by
  cases endTerm_eq_ok h with
  | once hread =>
    refine ⟨hs, ⟨fun c hc => ?_, ?_, hr.level.alternatives⟩, hr.frames, hr.first_le⟩
    · rcases List.mem_cons.mp hc with rfl | hc
      · exact hid.mono hfirst (Nat.le_refl _)
      · exact hr.level.terms c hc
    · rw [List.reverse_cons]
      exact hlevel.order_append (by simpa using hid) (List.pairwise_singleton ..)
  | quantified hread hquantifiable hgrow =>
    obtain ⟨hmade, hids⟩ := made_quantify hs hid hgrow
    refine ⟨hmade.sound.perm ?_, ⟨fun c hc => ?_, ?_, fun c hc => ?_⟩, ?_, hr.first_le⟩
    · simp only [pending, Level.pending, List.append_assoc]
      exact (List.reverse_perm _).symm.append_right _
    · rcases List.mem_append.mp hc with hc | hc
      · exact (hids c (List.mem_reverse.mp hc)).toIsTerm.mono hfirst (Nat.le_refl _)
      · exact (hr.level.terms c hc).extends hs hmade.ext
    · rw [List.reverse_append, List.reverse_reverse]
      exact (hlevel.extends hs hmade.ext).order_append (fun c hc => (hids c hc).toIsTerm)
        (Arena.inOrder_of_iterations hids)
    · exact (hr.level.alternatives c hc).extends hs hmade.ext
    · exact hr.frames.extends hs hmade.ext

theorem sound_openCapture {name : Option String} {cursor : Cursor} (hr : r.Sound)
    (h : openCapture s name cursor r = .ok r') : r'.Sound := by
  obtain ⟨-, rfl⟩ := openCapture_eq_ok h
  refine ⟨hr.sound, Level.fits_empty, ⟨hr.level, hr.first_le, fun n hn => ?_, hr.frames⟩, ?_⟩
  · cases hn
    rfl
  · simp [firstInside, Frame.firstInside, nextGroup]

theorem sound_openOther {opening : Opening} {cursor : Cursor} (hr : r.Sound)
    (hopening : ∀ n, opening ≠ .capture n) : (r.openOther opening cursor).Sound := by
  refine ⟨hr.sound, Level.fits_empty, ⟨hr.level, hr.first_le, fun n hn => absurd hn (hopening n),
    hr.frames⟩, ?_⟩
  cases opening with
  | capture n => exact absurd rfl (hopening n)
  | _ => exact Nat.le_refl _

theorem sound_openGroup (hr : r.Sound) (h : OpensGroup s r r') : r'.Sound := by
  cases h with
  | other sign hsign hrest hopening => exact sound_openOther hr hopening
  | named hrest hname h => exact sound_openCapture hr h
  | unnamed hrest h => exact sound_openCapture hr h

/-- The node of a group is a term with the captures of the group. -/
theorem made_groupNode {f : Frame} {alternatives : List NodeId} {quantifiable : Bool}
    (hs : a.Sound (alternatives ++ rest))
    (halternatives : ∀ id ∈ alternatives, a.IsAlternative f.firstInside hi id)
    (hnumber : ∀ n, f.opening = .capture n → n = f.firstGroup) (hhi : f.firstInside ≤ hi)
    (h : (groupNode s f alternatives hi).run a = .ok ((id, quantifiable), b)) :
    Made a b [id] rest ∧ b.IsTerm f.firstGroup hi id := by
  unfold groupNode at h
  unfold Frame.firstInside at halternatives hhi
  simp only at h
  cases hopening : f.opening with
  | plain =>
    rw [hopening] at h halternatives
    obtain ⟨_, a1, h1, h⟩ := Grow.bind_eq_ok.mp h
    obtain ⟨heq, rfl⟩ := Grow.pure_eq_ok.mp h
    cases heq
    obtain ⟨hmade, hterm, -⟩ := made_group (g := ⟨alternatives, .plain, f.firstGroup, hi⟩) hs
      halternatives (by simp [Group.isQuantifier])
      ⟨⟨Nat.le_refl _, Nat.le_refl _⟩, by simp [Group.number?]⟩ h1
    exact ⟨hmade, hterm⟩
  | capture number =>
    obtain rfl := hnumber number hopening
    rw [hopening] at h halternatives hhi
    obtain ⟨_, a1, h1, h⟩ := Grow.bind_eq_ok.mp h
    obtain ⟨heq, rfl⟩ := Grow.pure_eq_ok.mp h
    cases heq
    obtain ⟨hmade, hterm, -⟩ := made_group
      (g := ⟨alternatives, .capture f.firstGroup, f.firstGroup + 1, hi⟩) hs halternatives
      (by simp [Group.isQuantifier]) (by
        refine ⟨⟨Nat.le_succ _, Nat.le_refl _⟩, fun n hn => ?_⟩
        cases hn
        exact ⟨Nat.le_refl _, hhi⟩) h1
    exact ⟨hmade, hterm⟩
  | look direction negated =>
    rw [hopening] at h halternatives
    obtain ⟨body, a1, h1, h⟩ := Grow.bind_eq_ok.mp h
    obtain ⟨_, a2, h2, h⟩ := Grow.bind_eq_ok.mp h
    obtain ⟨heq, rfl⟩ := Grow.pure_eq_ok.mp h
    cases heq
    obtain ⟨hmade1, hbody, hkind⟩ := made_group (g := ⟨alternatives, .plain, f.firstGroup, hi⟩) hs
      halternatives (by simp [Group.isQuantifier])
      ⟨⟨Nat.le_refl _, Nat.le_refl _⟩, by simp [Group.number?]⟩ h1
    obtain ⟨hmade2, hterm, -⟩ := made_look hmade1.sound hbody hkind rfl
      ⟨Nat.le_refl _, Nat.le_refl _⟩ h2
    exact ⟨⟨hmade1.ext.trans hmade2.ext, hmade2.sound⟩, hterm⟩

theorem sound_closeGroup (hr : r.Sound) (h : r.closeGroup s = .ok r') : r'.Sound := by
  obtain ⟨r1, f, frames, id, quantifiable, b, h1, hframes, hgrow, h⟩ := closeGroup_eq_ok h
  obtain ⟨hr1, hterms⟩ := sound_endAlternative hr h1
  have hfits := hr1.frames
  have hlevel := hr1.level
  have hle := hr1.first_le
  rw [hframes] at hfits hlevel hle
  obtain ⟨houter, hfirst, hnumber, hfit⟩ := hfits
  have hs : r1.arena.Sound (r1.level.alternatives.reverse ++
      (f.outer.pending ++ frames.flatMap (·.outer.pending))) := by
    refine hr1.sound.perm ?_
    rw [pending, Level.pending, hterms, hframes, List.nil_append, List.flatMap_cons]
    exact (List.reverse_perm _).symm.append_right _
  obtain ⟨hmade, hid⟩ := made_groupNode hs
    (fun c hc => hlevel.alternatives c (List.mem_reverse.mp hc)) hnumber hle hgrow
  have hgroups := Frame.firstGroup_le hnumber
  have houter' := houter.extends hs hmade.ext
  refine sound_endTerm ⟨hmade.sound.drop_pending, ?_, hfit.extends hs hmade.ext, ?_⟩ hmade.sound
    hid houter' hfirst h
  · exact houter'.mono (Nat.le_refl _) (Nat.le_trans hgroups hle)
  · exact Nat.le_trans hfirst (Nat.le_trans hgroups hle)

theorem sound_step {c : Char} (hr : r.Sound) (h : r.step s c = .ok r') : r'.Sound := by
  cases step_eq_ok h with
  | bar hc h1 =>
    obtain ⟨hr1, -⟩ := sound_endAlternative hr h1
    exact ⟨hr1.sound, hr1.level, hr1.frames, hr1.first_le⟩
  | openGroup hc hopen => exact sound_openGroup hr hopen
  | closeGroup hc hclose => exact sound_closeGroup hr hclose
  | @atom a cursor id b _ hc hread hgrow hend =>
    obtain ⟨hmade, hid⟩ := made_atom (isAtom_atom hread) hr.sound hgrow
    have hr' : Sound ⟨cursor, b, r.names, r.level, r.frames⟩ :=
      ⟨hmade.sound.drop_pending, hr.level.extends hr.sound hmade.ext,
        hr.frames.extends hr.sound hmade.ext, hr.first_le⟩
    exact sound_endTerm hr' hmade.sound hid hr'.level hr.first_le hend

theorem sound_run (fuel : Nat) (hr : r.Sound) (h : run s fuel r = .ok r') : r'.Sound :=
  run_keeps (fun _ => sound_step) fuel hr h

/-- At the end of the pattern all nodes are put below a root, which no node is put above. It captures
the whole match. -/
theorem wellFormed_finish {t : Tree} (hr : r.Sound) (h : r.finish = .ok t) : t.WellFormed ∧
    ∃ alternatives, t.kind t.root = .group ⟨alternatives, .capture 0, 1, t.groupCount⟩ := by
  obtain ⟨r1, root, matchFound, b, b', h1, hframes, hroot, hfound, rfl⟩ := finish_eq_ok h
  obtain ⟨hr1, hterms⟩ := sound_endAlternative hr h1
  have hs : r1.arena.Sound (r1.level.alternatives.reverse ++ []) := by
    refine hr1.sound.perm ?_
    rw [pending, Level.pending, hterms, hframes, List.nil_append, List.flatMap_nil]
    exact (List.reverse_perm _).symm.append_right _
  have halternatives : ∀ c ∈ r1.level.alternatives.reverse,
      r1.arena.IsAlternative 1 r1.nextGroup c := fun c hc => by
    have := hr1.level.alternatives c (List.mem_reverse.mp hc)
    rwa [hframes] at this
  obtain ⟨hmade, hkind, hlt⟩ := made_add (k := .group ⟨r1.level.alternatives.reverse, .capture 0, 1,
    r1.nextGroup⟩) hs ⟨fun c hc => (halternatives c hc).sequence, by simp [Group.isQuantifier],
      fun c hc => (halternatives c hc).within⟩ hroot
  obtain ⟨hmade', hkind', hlt'⟩ := made_leaf hmade.sound (by rfl) (by trivial) hfound
  have hroot := (hmade'.ext.kind_eq root hlt).trans hkind
  refine ⟨wellFormed_of_sound (hmade'.sound.perm (.swap ..)) ⟨_, hroot⟩ hkind' fun c hc => ?_, _,
    hroot⟩
  rw [hroot] at hc
  exact ⟨_, (((halternatives c hc).extends hs hmade.ext).extends hmade.sound hmade'.ext).within⟩

end Reader

section Parse

variable {pattern : String} {flags : Flags} {budget : Budget} {properties : PropertyLookup} {t : Tree}

theorem exists_sound_of_parse (h : parse pattern flags budget properties = .ok t) :
    ∃ r : Reader, r.Sound ∧ r.finish = .ok t := by
  obtain ⟨r, hr, h⟩ := bind_eq_ok.mp h
  exact ⟨r, Reader.sound_run _ (Reader.sound_start _ _) hr, h⟩

/-- The tree of a pattern is well-formed. -/
theorem wellFormed_parse (h : parse pattern flags budget properties = .ok t) : t.WellFormed :=
  let ⟨_, hr, h⟩ := exists_sound_of_parse h
  (Reader.wellFormed_finish hr h).1

/-- The root of the tree captures the whole match, around all other captures. -/
theorem root_parse (h : parse pattern flags budget properties = .ok t) :
    ∃ alternatives, t.kind t.root = .group ⟨alternatives, .capture 0, 1, t.groupCount⟩ :=
  let ⟨_, hr, h⟩ := exists_sound_of_parse h
  (Reader.wellFormed_finish hr h).2

end Parse

end PatternAutomata.Pattern
