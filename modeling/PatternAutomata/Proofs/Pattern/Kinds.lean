import PatternAutomata.Proofs.Pattern.Reader
import PatternAutomata.Proofs.Tree.Kinds

/-!
# Which kinds of nodes are read

The reader looks at its limits only to refuse a pattern. So a pattern that is read under some limits
gives the same tree under larger ones. And what holds of the kinds of atoms, and of the nodes that
hold others together, holds of the whole tree.
-/

namespace PatternAutomata

/-! ## Limits -/

namespace Settings

variable {s s' : Settings}

def withLimits (s : Settings) (counted groups depth : Nat) : Settings :=
  { s with maxCountedRepetition := counted, maxCaptureGroups := groups, maxNestingDepth := depth }

/-- The second settings are the first ones with limits that are at least as large. -/
structure Below (s s' : Settings) : Prop where
  counted : s.maxCountedRepetition ≤ s'.maxCountedRepetition
  groups : s.maxCaptureGroups ≤ s'.maxCaptureGroups
  depth : s.maxNestingDepth ≤ s'.maxNestingDepth
  eq_withLimits :
    s' = s.withLimits s'.maxCountedRepetition s'.maxCaptureGroups s'.maxNestingDepth

theorem Below.unicode (h : s.Below s') : s'.unicode = s.unicode := by rw [h.eq_withLimits]; rfl

end Settings

namespace Pattern

variable {s s' : Settings} {K : NodeKind → Prop}

theorem classItems_withLimits (m g d start fuel : Nat) (cur : Cursor) :
    classItems (s.withLimits m g d) start fuel cur = classItems s start fuel cur := by
  induction fuel generalizing cur with
  | zero => rfl
  | succ fuel ih =>
    simp only [classItems, ih]
    rfl

theorem charClass_withLimits (m g d start : Nat) (cur : Cursor) :
    charClass (s.withLimits m g d) start cur = charClass s start cur := by
  simp only [charClass, classItems_withLimits]
  rfl

theorem atomEscape_withLimits (m g d start : Nat) (cur : Cursor) :
    atomEscape (s.withLimits m g d) start cur = atomEscape s start cur := rfl

theorem atom_withLimits (m g d : Nat) (c : Char) (cur : Cursor) :
    atom (s.withLimits m g d) c cur = atom s c cur := by
  simp only [atom, charClass_withLimits, atomEscape_withLimits]
  rfl

theorem atom_eq_of_below (h : s.Below s') (c : Char) (cur : Cursor) : atom s' c cur = atom s c cur := by
  rw [h.eq_withLimits, atom_withLimits]

theorem quantifier_of_below (h : s.Below s') {cur : Cursor} {found : Option Quantifier × Cursor}
    (hq : quantifier s cur = .ok found) : quantifier s' cur = .ok found := by
  unfold quantifier at hq ⊢
  rw [h.unicode]
  cases hit : iterations? cur with
  | none => simpa only [hit] using hq
  | some it =>
    obtain ⟨⟨min, max⟩, after⟩ := it
    simp only [hit] at hq ⊢
    split at hq
    · cases hq
    · rename_i hmin
      rw [if_neg hmin]
      split at hq
      · cases hq
      · rename_i hcount
        rwa [if_neg fun hcount' => hcount ?_]
        simp only [exceedsCount, Bool.and_eq_true, decide_eq_true_eq] at hcount' ⊢
        exact ⟨hcount'.1, Nat.lt_of_le_of_lt h.counted hcount'.2⟩

/-! ## Steps of the reader -/

namespace Reader

variable {r q : Reader} {a' : Arena}

theorem carries_groupNode {hi : Nat} (hK : NodeKind.Structural K hi) (f : Frame)
    (alternatives : List NodeId)
    (hgroup : ∀ n, f.opening = .capture n → K (.group ⟨alternatives, .capture n, n + 1, hi⟩)) :
    Grow.Carries K (groupNode s f alternatives hi) := by
  unfold groupNode
  cases hopening : f.opening with
  | plain =>
    exact Grow.carries_bind (Grow.carries_add (hK.group _ rfl rfl)) fun id =>
      Grow.carries_pure (id, true)
  | capture number =>
    exact Grow.carries_bind (Grow.carries_add (hgroup number hopening)) fun id =>
      Grow.carries_pure (id, true)
  | look direction negated =>
    exact Grow.carries_bind (Grow.carries_add (hK.group _ rfl rfl)) fun body =>
      Grow.carries_bind (Grow.carries_look hK direction negated body) fun id =>
        Grow.carries_pure (id, _)

/-- The reader with another arena. -/
abbrev withArena (r : Reader) (a : Arena) : Reader := { r with arena := a }

/-- From a reader whose arena has more room the second step leads to where the first one does. -/
def Carries (K : NodeKind → Prop) (f f' : Reader → Except CompileError Reader) : Prop :=
  ∀ r a' q, r.arena.Roomier K a' → f r = .ok q →
    ∃ b', f' (r.withArena a') = .ok (q.withArena b') ∧ q.arena.Roomier K b'

theorem carries_grow {α : Type} {g : Grow α} {v : α} (hg : Grow.Carries K g)
    (ha : r.arena.Roomier K a') (h : r.grow g = .ok (v, q)) :
    ∃ b', (r.withArena a').grow g = .ok (v, q.withArena b') ∧ q.arena.Roomier K b' := by
  obtain ⟨b, hb, rfl⟩ := grow_eq_ok h
  obtain ⟨b', hb', hroom⟩ := hg r.arena a' v b ha hb
  refine ⟨b', ?_, hroom⟩
  simp only [grow, withArena, hb']

theorem carries_endAlternative (hK : ∀ hi, NodeKind.Structural K hi) :
    Carries K endAlternative endAlternative := by
  intro r a' q ha h
  obtain ⟨⟨id, r1⟩, hg, h⟩ := bind_eq_ok.mp h
  cases h
  obtain ⟨b', hg', hroom⟩ := carries_grow (Grow.carries_sequence (hK 0) _) ha hg
  exact ⟨b', bind_eq_ok.mpr ⟨_, hg', rfl⟩, hroom⟩

theorem carries_endTerm (hK : ∀ hi, NodeKind.Structural K hi) (hs : s.Below s') (id : NodeId)
    (quantifiable : Bool) (firstGroup : Nat) :
    Carries K (endTerm s id quantifiable firstGroup) (endTerm s' id quantifiable firstGroup) := by
  intro r a' q ha h
  obtain ⟨⟨q?, cursor⟩, hq, h⟩ := bind_eq_ok.mp h
  have hq' := quantifier_of_below hs hq
  cases q? with
  | none =>
    cases h
    exact ⟨a', bind_eq_ok.mpr ⟨_, hq', rfl⟩, ha⟩
  | some quant =>
    simp only at h
    split at h
    · rename_i hquantifiable
      obtain ⟨⟨ids, r1⟩, hg, h⟩ := bind_eq_ok.mp h
      cases h
      have hread : ({ r with cursor } : Reader).arena.Roomier K a' := ha
      obtain ⟨b', hg', hroom⟩ := carries_grow (carries_quantify (hK _) _ _ _) hread hg
      refine ⟨b', bind_eq_ok.mpr ⟨_, hq', ?_⟩, hroom⟩
      simp only [if_pos hquantifiable]
      exact bind_eq_ok.mpr ⟨_, hg', rfl⟩
    · cases h

theorem carries_openCapture (hs : s.Below s') (name : Option String) (cursor : Cursor) :
    Carries K (openCapture s name cursor) (openCapture s' name cursor) := by
  intro r a' q ha h
  unfold openCapture at h ⊢
  dsimp only [nextGroup] at h ⊢
  split at h
  · cases h
  · rename_i hcount
    rw [if_neg fun hcount' => hcount (Nat.lt_of_le_of_lt hs.groups hcount')]
    split at h
    · cases h
    · cases h
      exact ⟨a', rfl, ha⟩

theorem carries_openGroup (hs : s.Below s') : Carries K (openGroup s) (openGroup s') := by
  intro r a' q ha h
  unfold openGroup at h ⊢
  dsimp only at h ⊢
  split at h
  · cases h
  · rename_i hdepth
    rw [if_neg fun hdepth' => hdepth (Nat.le_trans hs.depth hdepth')]
    split at h
    iterate 5
      · cases h
        exact ⟨a', rfl, ha⟩
    · obtain ⟨⟨name, cur⟩, hname, h⟩ := bind_eq_ok.mp h
      obtain ⟨b', hb', hroom⟩ := carries_openCapture hs (some name) cur r a' q ha h
      exact ⟨b', bind_eq_ok.mpr ⟨_, hname, hb'⟩, hroom⟩
    · cases h
    · exact carries_openCapture hs none _ r a' q ha h

theorem carries_closeGroup (hK : ∀ hi, NodeKind.Structural K hi) (hgroup : ∀ g, K (.group g))
    (hs : s.Below s') : Carries K (closeGroup s) (closeGroup s') := by
  intro r a' q ha h
  obtain ⟨r1, h1, h⟩ := bind_eq_ok.mp h
  obtain ⟨a1, h1', ha1⟩ := carries_endAlternative hK r a' r1 ha h1
  obtain ⟨cursor, arena, names, level, frames⟩ := r1
  cases frames with
  | nil => cases h
  | cons f frames =>
    obtain ⟨⟨⟨id, quantifiable⟩, r2⟩, hg, h⟩ := bind_eq_ok.mp h
    obtain ⟨a2, hg', ha2⟩ := carries_grow
      (carries_groupNode (hK _) f _ fun n _ => hgroup _) ha1 hg
    obtain ⟨b', hb', hroom⟩ := carries_endTerm hK hs id quantifiable f.firstGroup
      { r2 with cursor := r2.cursor.drop 1, level := f.outer, frames } a2 q ha2 h
    refine ⟨b', bind_eq_ok.mpr ⟨_, h1',
      bind_eq_ok.mpr ⟨((id, quantifiable), r2.withArena a2), ?_, hb'⟩⟩, hroom⟩
    rw [show groupNode s' = groupNode s by unfold groupNode; rw [hs.unicode]]
    exact hg'

theorem carries_step (hK : ∀ hi, NodeKind.Structural K hi) (hgroup : ∀ g, K (.group g)) (hs : s.Below s')
    (hatom : ∀ c cur t cur', atom s c cur = .ok (t, cur') → K t.kind) (c : Char) :
    Carries K (step s c) (step s' c) := by
  intro r a' q ha h
  unfold step at h ⊢
  split at h
  · obtain ⟨r1, h1, h⟩ := bind_eq_ok.mp h
    obtain ⟨a1, h1', ha1⟩ := carries_endAlternative hK r a' r1 ha h1
    cases h
    exact ⟨a1, bind_eq_ok.mpr ⟨_, h1', rfl⟩, ha1⟩
  · exact carries_openGroup hs r a' q ha h
  · exact carries_closeGroup hK hgroup hs r a' q ha h
  · obtain ⟨⟨t, cursor⟩, hread, h⟩ := bind_eq_ok.mp h
    obtain ⟨⟨id, r1⟩, hg, h⟩ := bind_eq_ok.mp h
    have hk : K t.kind := hatom _ _ _ _ (eq_ok_of_ofReading hread)
    obtain ⟨a1, hg', ha1⟩ := carries_grow (Grow.carries_add hk) ha hg
    obtain ⟨b', hb', hroom⟩ := carries_endTerm hK hs id t.quantifiable r1.nextGroup
      { r1 with cursor } a1 q ha1 h
    refine ⟨b', bind_eq_ok.mpr ⟨(t, cursor), ?_, bind_eq_ok.mpr ⟨_, hg', hb'⟩⟩, hroom⟩
    rw [atom_eq_of_below hs]
    exact hread

theorem carries_run (hK : ∀ hi, NodeKind.Structural K hi) (hgroup : ∀ g, K (.group g)) (hs : s.Below s')
    (hatom : ∀ c cur t cur', atom s c cur = .ok (t, cur') → K t.kind) (fuel : Nat) :
    Carries K (run s fuel) (run s' fuel) := by
  induction fuel with
  | zero =>
    intro r a' q ha h
    cases h
    exact ⟨a', rfl, ha⟩
  | succ fuel ih =>
    intro r a' q ha h
    unfold run at h ⊢
    dsimp only
    split at h
    · cases h
      exact ⟨a', rfl, ha⟩
    · obtain ⟨r1, h1, h⟩ := bind_eq_ok.mp h
      obtain ⟨a1, h1', ha1⟩ := carries_step hK hgroup hs hatom _ r a' r1 ha h1
      obtain ⟨b', hb', hroom⟩ := ih r1 a1 q ha1 h
      exact ⟨b', bind_eq_ok.mpr ⟨_, h1', hb'⟩, hroom⟩

/-- The finished tree has only nodes that satisfy `K`, and more room does not change it. -/
theorem finish_roomier (hK : ∀ hi, NodeKind.Structural K hi) (hgroup : ∀ g, K (.group g))
    (ha : r.arena.Roomier K a') {t : Tree} (h : r.finish = .ok t) :
    (r.withArena a').finish = .ok t ∧ ∀ k ∈ t.kinds, K k := by
  obtain ⟨r1, h1, h⟩ := bind_eq_ok.mp h
  obtain ⟨a1, h1', ha1⟩ := carries_endAlternative hK r a' r1 ha h1
  obtain ⟨cursor, arena, names, level, frames⟩ := r1
  cases frames with
  | cons f frames => cases h
  | nil =>
    obtain ⟨⟨root, r2⟩, hg, h⟩ := bind_eq_ok.mp h
    obtain ⟨a2, hg', ha2⟩ := carries_grow (Grow.carries_add (hgroup _)) ha1 hg
    simp only at h
    split at h
    · rename_i t' ht
      cases h
      obtain ⟨⟨matchFound, b⟩, hfound, ht⟩ := bind_eq_ok.mp ht
      cases ht
      obtain ⟨b', hfound', hb⟩ := Grow.carries_add (hK 0).matchFound _ a2 _ _ ha2 hfound
      refine ⟨bind_eq_ok.mpr ⟨_, h1', bind_eq_ok.mpr ⟨(root, r2.withArena a2), hg', ?_⟩⟩, hb.all⟩
      have hfinish : a2.finish root r2.names = .ok
          { kinds := b.kinds, places := Tree.placesOf b.kinds, root, matchFound
            groupNames := r2.names } :=
        bind_eq_ok.mpr ⟨(matchFound, b'), hfound', by dsimp only; rw [hb.kinds_eq]; rfl⟩
      simp only [hfinish]
      rfl
    · cases h

end Reader

/-! ## Trees of patterns -/

theorem settings_below {flags : Flags} {budget budget' : Budget} {properties : PropertyLookup}
    {declared : List (Option String)} (hb : budget.AtMost budget') :
    (Settings.new flags budget properties declared).Below
      (Settings.new flags budget' properties declared) :=
  ⟨hb.maxCountedRepetition, hb.maxCaptureGroups, hb.maxNestingDepth, rfl⟩

theorem parse_roomier {pattern : String} {flags : Flags} {budget budget' : Budget}
    {properties : PropertyLookup} {t : Tree} (hK : ∀ hi, NodeKind.Structural K hi)
    (hgroup : ∀ g, K (.group g)) (hb : budget.AtMost budget')
    (hatom : ∀ s : Settings, s = Settings.new flags budget properties (declaredGroups pattern.toList) →
      ∀ c cur a cur', atom s c cur = .ok (a, cur') → K a.kind)
    (h : parse pattern flags budget properties = .ok t) :
    parse pattern flags budget' properties = .ok t ∧ ∀ k ∈ t.kinds, K k := by
  obtain ⟨r, hr, h⟩ := bind_eq_ok.mp h
  obtain ⟨b', hr', hb'⟩ := Reader.carries_run hK hgroup (settings_below hb)
    (hatom _ rfl) _ _ { limit := budget'.maxTreeSize } r ⟨rfl, hb.maxTreeSize, by simp⟩ hr
  obtain ⟨hfinish, hall⟩ := Reader.finish_roomier hK hgroup hb' h
  exact ⟨bind_eq_ok.mpr ⟨_, hr', hfinish⟩, hall⟩

/-- What holds of the kinds of atoms, and of all nodes that hold others together, holds of every
node of the tree. -/
theorem kinds_of_parse {pattern : String} {flags : Flags} {budget : Budget}
    {properties : PropertyLookup} {t : Tree} (hK : ∀ hi, NodeKind.Structural K hi)
    (hgroup : ∀ g, K (.group g))
    (hatom : ∀ s : Settings, s = Settings.new flags budget properties (declaredGroups pattern.toList) →
      ∀ c cur a cur', atom s c cur = .ok (a, cur') → K a.kind)
    (h : parse pattern flags budget properties = .ok t) (id : NodeId) : K (t.kind id) := by
  obtain ⟨-, hall⟩ := parse_roomier hK hgroup (.refl budget) hatom h
  rw [Tree.kind, Array.getD_eq_getD_getElem?]
  cases hget : t.kinds[id]? with
  | none => exact (hK 0).matchFound
  | some k => exact hall k (Array.mem_of_getElem? hget)

/-- A larger budget gives the same tree. -/
theorem parse_of_atMost {pattern : String} {flags : Flags} {budget budget' : Budget}
    {properties : PropertyLookup} {t : Tree} (hb : budget.AtMost budget')
    (h : parse pattern flags budget properties = .ok t) :
    parse pattern flags budget' properties = .ok t :=
  (parse_roomier (K := fun _ => True) (fun _ => ⟨trivial, fun _ => trivial,
    fun _ => trivial, fun _ _ _ => trivial, fun _ _ _ => trivial⟩) (fun _ => trivial) hb
    (fun _ _ _ _ _ _ _ => trivial) h).1

end Pattern

end PatternAutomata
