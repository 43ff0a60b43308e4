import PatternAutomata.Proofs.Nfa.Branches
import PatternAutomata.Proofs.Pattern.Linked

/-!
# Empty iterations

A quantifier whose iterations can be skipped tells from the path whether the iteration that it leaves
has begun on the same walk. The path is shared by all quantifiers, however they are nested, and the
walk goes in and out of them. What makes the test exact is that as long as a quantifier has been
entered on the branch, the branch stays at the first term of the iteration that it has begun there:
leaving this term is what the test forbids. So an element of the path never speaks of an earlier
iteration, and a branch enters every such quantifier once at most. Since a branch can only come back
to a loop to enter it, no branch goes on forever.
-/

namespace PatternAutomata

namespace Tree

variable {t : Tree} {group first first' x : NodeId}

namespace Opens

theorem exists_term (h : t.WellFormed) (hfirst : t.Opens group first) :
    ∃ a, (t.terms a)[0]? = some first ∧ t.parent a = some group := by
  obtain ⟨g, a, hg, -, ha, hc⟩ := hfirst
  exact ⟨a, hc, h.parent_alternative hg ha⟩

theorem group_eq (h : t.WellFormed) (hfirst : t.Opens group first) {a group' k : Nat}
    (hc : (t.terms a)[k]? = some first) (hgroup : t.parent a = some group') : group' = group := by
  obtain ⟨a', ha', hgroup'⟩ := hfirst.exists_term h
  obtain rfl := Option.some.inj ((h.parent_of_term hc).symm.trans (h.parent_of_term ha'))
  exact Option.some.inj (hgroup.symm.trans hgroup')

theorem isTerm (h : t.WellFormed) (hfirst : t.Opens group first) : (t.kind first).isTerm = true := by
  obtain ⟨a, ha, -⟩ := hfirst.exists_term h
  exact h.isTerm_of_term ha

theorem not_under (h : t.WellFormed) (hfirst : t.Opens group first) : ¬ t.Under first group := by
  intro hunder
  obtain ⟨a, ha, hparent⟩ := hfirst.exists_term h
  have hlt := h.child_lt a first (mem_children_of_term ha)
  have hlt' := h.child_lt group a (h.child_of_parent group a hparent)
  exact absurd (h.le_of_under hunder) (Nat.not_le.mpr (Nat.lt_trans hlt hlt'))

/-- A term that stands above the first term of an iteration is this term, or stands above the
quantifier too. -/
theorem eq_or_under (h : t.WellFormed) (hfirst : t.Opens group first)
    (hterm : (t.kind x).isTerm = true) (hx : t.Under x first) : x = first ∨ t.Under x group := by
  obtain ⟨a, ha, hparent⟩ := hfirst.exists_term h
  rcases h.under_parent hx (h.parent_of_term ha) with heq | hxa
  · exact .inl heq.symm
  · exact .inr (h.under_group hterm hxa ha hparent)

/-- A node stands under one first term of a quantifier only. -/
theorem eq (h : t.WellFormed) (hfirst : t.Opens group first) (hfirst' : t.Opens group first')
    (hx : t.Under first x) (hx' : t.Under first' x) : first = first' := by
  rcases h.under_or_under hx hx' with hunder | hunder
  · exact (hfirst'.eq_or_under h (hfirst.isTerm h) hunder).resolve_right (hfirst.not_under h)
  · exact ((hfirst.eq_or_under h (hfirst'.isTerm h) hunder).resolve_right (hfirst'.not_under h)).symm

end Opens

end Tree

namespace Nfa

variable {t : Tree} {s s' : Stop} {group first : NodeId}

theorem Stop.under_after {a : NodeId} {p : List PathElement} :
    (⟨.after t group, p⟩ : Stop).Under t a ↔ t.Under a group := by
  unfold Task.after
  split <;> exact Iff.rfl

theorem Stop.under_enter {id : NodeId} (hs : s.task = .enter id) : s.Under t id := by
  unfold Stop.Under
  rw [hs]

/-- A stop that stands under some node is about one node. -/
theorem Stop.Under.exists_node {a : NodeId} (hs : s.Under t a) :
    ∃ x, ∀ b, s.Under t b ↔ t.Under b x := by
  obtain ⟨task, p⟩ := s
  cases task with
  | enter id | leave id | finishAlternative id => exact ⟨id, fun b => Iff.rfl⟩
  | _ => cases hs

/-! ## In and out of an iteration -/

/-- A branch that has entered the quantifier stays at the first term of the iteration. -/
theorem Moves.stays (h : t.WellFormed) (hmove : Moves t s s') (hfirst : t.Opens group first)
    (hmem : .enter group ∈ s.path) (hs : s.Under t first) : s'.Under t first := by
  obtain ⟨a₀, ha₀, -⟩ := hfirst.exists_term h
  have hparent₀ := h.parent_of_term ha₀
  cases hmove with
  | pass | skip | empty => exact hs
  | first hg ha hc =>
    have ha' := Tree.Under.child hs (Tree.mem_children_of_alternative hg ha)
    exact ha'.child (Tree.mem_children_of_term hc)
  | found hparent =>
    cases h.eq_of_under_of_parent_none hs hparent
    cases hparent.symm.trans hparent₀
  | held hparent hl =>
    rcases h.under_parent hs hparent with rfl | hlook
    · obtain rfl := Option.some.inj (hparent.symm.trans hparent₀)
      simp [Tree.terms, hl] at ha₀
    · exact hlook.child (Tree.matchFound_mem_children hl)
  | next hc hgroup hnext hlive =>
    rcases h.under_parent hs (h.parent_of_term hc) with rfl | ha
    · obtain rfl := hfirst.group_eq h hc hgroup
      exact absurd hmem (hlive hfirst)
    · exact ha.child (Tree.mem_children_of_term hnext)
  | last hc hgroup hlive =>
    refine Stop.under_after.mpr ?_
    rcases h.under_parent hs (h.parent_of_term hc) with rfl | ha
    · obtain rfl := hfirst.group_eq h hc hgroup
      exact absurd hmem (hlive hfirst)
    · exact h.under_group (hfirst.isTerm h) ha hc hgroup
  | finish => exact Stop.under_after.mpr hs

/-- A branch comes to the first term of an iteration, or below, only by entering the quantifier. -/
theorem Moves.stayed (h : t.WellFormed) (hmove : Moves t s s') (hfirst : t.Opens group first)
    (hmem : .enter group ∉ s'.path) (hs' : s'.Under t first) : s.Under t first := by
  obtain ⟨a₀, ha₀, -⟩ := hfirst.exists_term h
  have hparent₀ := h.parent_of_term ha₀
  have hterm := hfirst.isTerm h
  cases hmove with
  | pass | skip | empty => exact hs'
  | first hg ha hc =>
    have hgroup := h.parent_alternative hg ha
    rcases h.under_parent hs' (h.parent_of_term hc) with rfl | ha'
    · obtain rfl := hfirst.group_eq h hc hgroup
      exact absurd List.mem_cons_self hmem
    · exact h.under_group hterm ha' hc hgroup
  | found hparent =>
    cases h.eq_of_under_of_parent_none hs' h.matchFound_parent
    cases h.matchFound_parent.symm.trans hparent₀
  | held hparent hl =>
    have hfound := h.parent_matchFound hl
    rcases h.under_parent hs' hfound with rfl | hlook
    · obtain rfl := Option.some.inj (hfound.symm.trans hparent₀)
      simp [Tree.terms, hl] at ha₀
    · exact h.under_of_parent hparent hlook
  | @next id a _ next k p hc hgroup hnext hlive =>
    rcases h.under_parent hs' (h.parent_of_term hnext) with rfl | ha
    · obtain rfl := Option.some.inj ((h.parent_of_term hnext).symm.trans hparent₀)
      cases (h.index_term _ _ _ hnext).symm.trans (h.index_term _ _ _ ha₀)
    · exact ha.trans (Tree.under_term hc)
  | last hc hgroup hlive =>
    have ha := h.under_of_parent hgroup (Stop.under_after.mp hs')
    exact ha.trans (Tree.under_term hc)
  | finish => exact Stop.under_after.mp hs'

/-- A move puts at most one element on the path. It enters a quantifier whose iterations can be
skipped only to begin one. -/
theorem Moves.path (hmove : Moves t s s') : s'.path = s.path ∨ ∃ e, s'.path = e :: s.path ∧
    ∀ group g, e = .enter group → t.kind group = .group g → t.canSkip g = true →
      s.task = .enter group ∧ ∃ first, t.Opens group first ∧ s'.task = .enter first := by
  cases hmove with
  | pass | found | held | next => exact .inl rfl
  | skip | last | finish => exact .inr ⟨_, rfl, nofun⟩
  | @first id a first g p hg ha hc =>
    refine .inr ⟨_, rfl, fun group g' heq hg' hskip => ?_⟩
    cases heq
    obtain rfl : g = g' := by simpa [hg] using hg'
    exact ⟨rfl, first, ⟨g, a, hg, hskip, ha, hc⟩, rfl⟩
  | @empty id g p hg hquantifier =>
    refine .inr ⟨_, rfl, fun group g' heq hg' hskip => ?_⟩
    cases heq
    obtain rfl : g = g' := by simpa [hg] using hg'
    simp [Tree.canSkip, hquantifier] at hskip

/-- A branch that is within the body of a look-around ends with the body. -/
theorem Moves.within_body (h : t.WellFormed) (hmove : Moves t s s') {look : NodeId} {l : LookAround}
    (hl : t.kind look = .look l) (hs : s.Under t l.body ∨ s.task = .enter l.matchFound) :
    s'.Under t l.body ∨ s'.task = .enter l.matchFound := by
  have hparent₀ := h.parent_body hl
  obtain ⟨⟨g₀, hbody, -⟩, hfound⟩ := h.shaped_of_kind hl
  have hterm : (t.kind l.body).isTerm = true := by rw [hbody]; rfl
  -- Going on from the body itself leads to the end of the look-around only.
  have hup : ∀ {a k id}, (t.terms a)[k]? = some id → t.Under l.body id → t.Under l.body a :=
    fun {a k id} hc hid => by
      rcases h.under_parent hid (h.parent_of_term hc) with rfl | ha
      · obtain rfl := Option.some.inj ((h.parent_of_term hc).symm.trans hparent₀)
        simp [Tree.terms, hl] at hc
      · exact ha
  rcases hs with hs | hs
  · cases hmove with
    | pass | skip | empty => exact .inl hs
    | first hg ha hc =>
      have ha' := Tree.Under.child hs (Tree.mem_children_of_alternative hg ha)
      exact .inl (ha'.trans (Tree.under_term hc))
    | found hparent =>
      cases h.eq_of_under_of_parent_none hs hparent
      cases hparent.symm.trans hparent₀
    | held hparent hl' =>
      rcases h.under_parent hs hparent with rfl | hlook
      · obtain rfl := Option.some.inj (hparent.symm.trans hparent₀)
        cases hl'.symm.trans hl
        exact .inr rfl
      · exact .inl (hlook.child (Tree.matchFound_mem_children hl'))
    | next hc hgroup hnext hlive => exact .inl ((hup hc hs).trans (Tree.under_term hnext))
    | last hc hgroup hlive =>
      exact .inl (Stop.under_after.mpr (h.under_group hterm (hup hc hs) hc hgroup))
    | finish => exact .inl (Stop.under_after.mpr hs)
  · cases hmove with
    | pass hk =>
      cases hs
      exact absurd hfound hk
    | first hg | skip hg | empty hg =>
      cases hs
      cases hg.symm.trans hfound
    | _ => cases hs

/-! ## Along a branch -/

/-- A quantifier on the path whose iterations could be skipped was entered once, and the branch is
still at the first term of the iteration. -/
structure Stop.Sound (t : Tree) (s : Stop) : Prop where
  inside : ∀ group g, t.kind group = .group g → t.canSkip g = true → .enter group ∈ s.path →
    ∃ first, t.Opens group first ∧ s.Under t first
  once : ∀ group g, t.kind group = .group g → t.canSkip g = true →
    s.path.count (.enter group) ≤ 1

theorem Stop.sound_start (t : Tree) (task : Task) : Stop.Sound t ⟨task, []⟩ :=
  ⟨nofun, fun _ _ _ _ => Nat.zero_le 1⟩

/-- Nothing below the first term of an iteration is the quantifier. -/
theorem Stop.Sound.not_mem (h : t.WellFormed) {p : List PathElement}
    (hs : Stop.Sound t ⟨.enter group, p⟩) {g : Group} (hg : t.kind group = .group g)
    (hskip : t.canSkip g = true) : .enter group ∉ p := fun hmem => by
  obtain ⟨first, hfirst, hunder⟩ := hs.inside group g hg hskip hmem
  exact hfirst.not_under h hunder

theorem Moves.sound (h : t.WellFormed) (hmove : Moves t s s') (hs : s.Sound t) : s'.Sound t := by
  rcases hmove.path with hpath | ⟨e, hpath, he⟩
  · refine ⟨fun group g hg hskip hmem => ?_, hpath ▸ hs.once⟩
    rw [hpath] at hmem
    obtain ⟨first, hfirst, hunder⟩ := hs.inside group g hg hskip hmem
    exact ⟨first, hfirst, hmove.stays h hfirst hmem hunder⟩
  · refine ⟨fun group g hg hskip hmem => ?_, fun group g hg hskip => ?_⟩
    · rw [hpath] at hmem
      rcases List.mem_cons.mp hmem with heq | hmem
      · obtain ⟨-, first, hfirst, htask⟩ := he group g heq.symm hg hskip
        exact ⟨first, hfirst, Stop.under_enter htask⟩
      · obtain ⟨first, hfirst, hunder⟩ := hs.inside group g hg hskip hmem
        exact ⟨first, hfirst, hmove.stays h hfirst hmem hunder⟩
    · rw [hpath]
      by_cases heq : e = .enter group
      · obtain ⟨htask, -⟩ := he group g heq hg hskip
        have hnew : .enter group ∉ s.path := by
          obtain ⟨task, p⟩ := s
          obtain rfl := htask
          exact hs.not_mem h hg hskip
        exact Nat.le_of_eq (by rw [heq, List.count_cons_self, List.count_eq_zero.mpr hnew])
      · rw [List.count_cons_of_ne heq]
        exact hs.once group g hg hskip

section Branches

variable {n : Nfa} {context : Context} {start : Task} {b : List Stop}

theorem Branch.sound (hn : n.tree.WellFormed) (hb : Branch n context start s b) :
    s.Sound n.tree := by
  induction hb with
  | start => exact Stop.sound_start n.tree start
  | next _ hs ih => exact (hs.moves hn).sound hn ih

/-- On the way to the last stop the branch has entered the iteration that begins with `first`, and
has not left this term since. -/
def HasBegun (t : Tree) (group first : NodeId) (stops : List Stop) : Prop :=
  ∃ since p before, stops = since ++ ⟨.enter first, .enter group :: p⟩ :: before ∧
    ∀ s ∈ since, s.Under t first

/-- The walk goes on after a class that the iteration that begins with `first` has consumed, and the
branch has not left this term. -/
def HasConsumed (t : Tree) (first : NodeId) (start : Task) (stops : List Stop) : Prop :=
  ∃ cls set, start = .leave cls ∧ t.kind cls = .charClass set ∧ t.Under first cls ∧
    ∀ s ∈ stops, s.Under t first

/-- Where walks begin: after a class, at the root, and at the bodies of look-aheads. -/
inductive Task.Begins (t : Tree) : Task → Prop
  | resume {cls : NodeId} {set : CodePointSet} (h : t.kind cls = .charClass set) :
    Begins t (.leave cls)
  | root : Begins t (.enter t.root)
  | body {look : NodeId} {l : LookAround} (hl : t.kind look = .look l)
    (hdirection : l.direction = .ahead) : Begins t (.enter l.body)

theorem Branch.start_mem (hb : Branch n context start s b) : ⟨start, []⟩ ∈ s :: b := by
  induction hb with
  | start => exact List.mem_cons_self
  | next _ _ ih => exact List.mem_cons_of_mem _ ih

theorem Branch.mem_path_of_mem (hn : n.tree.WellFormed) (hb : Branch n context start s b)
    {e : PathElement} {s₀ : Stop} (hs₀ : s₀ ∈ s :: b) (he : e ∈ s₀.path) : e ∈ s.path := by
  induction hb with
  | start => exact List.mem_singleton.mp hs₀ ▸ he
  | @next s s' b _ hs ih =>
    rcases List.mem_cons.mp hs₀ with rfl | hs₀
    · exact he
    · rcases (hs.moves hn).path with hpath | ⟨e', hpath, -⟩
      · exact hpath ▸ ih hs₀
      · exact hpath ▸ List.mem_cons_of_mem _ (ih hs₀)

theorem Branch.hasBegun (hn : n.tree.WellFormed) (hb : Branch n context start s b)
    (hfirst : n.tree.Opens group first) (hmem : .enter group ∈ s.path)
    (hs : s.Under n.tree first) : HasBegun n.tree group first (s :: b) := by
  induction hb with
  | start => cases hmem
  | @next s s' b hb hmove ih =>
    have hmove := hmove.moves hn
    obtain ⟨g, a, hg, hskip, -⟩ := id hfirst
    have hunique : ∀ first', n.tree.Opens group first' → s'.Under n.tree first' →
        first = first' := fun first' hfirst' hs' => by
      obtain ⟨x, hx⟩ := hs.exists_node
      exact hfirst.eq hn hfirst' ((hx first).mp hs) ((hx first').mp hs')
    by_cases hentered : .enter group ∈ s.path
    · obtain ⟨first', hfirst', hunder⟩ := (hb.sound hn).inside group g hg hskip hentered
      obtain rfl := hunique first' hfirst' (hmove.stays hn hfirst' hentered hunder)
      obtain ⟨since, p, before, heq, hsince⟩ := ih hentered hunder
      exact ⟨s' :: since, p, before, by rw [heq]; rfl, List.forall_mem_cons.mpr ⟨hs, hsince⟩⟩
    · rcases hmove.path with hpath | ⟨e, hpath, he⟩
      · exact absurd (hpath ▸ hmem) hentered
      · have heq := (List.mem_cons.mp (hpath ▸ hmem)).resolve_right hentered
        obtain ⟨-, first', hfirst', htask⟩ := he group g heq.symm hg hskip
        obtain rfl := hunique first' hfirst' (Stop.under_enter htask)
        refine ⟨[], s.path, s :: b, ?_, nofun⟩
        obtain ⟨task, p⟩ := s'
        obtain rfl : task = .enter first := htask
        obtain rfl : p = e :: s.path := hpath
        rw [heq]
        rfl

/-- The path has the quantifier just when the branch has begun the iteration. -/
theorem Branch.mem_path_iff (hn : n.tree.WellFormed) (hb : Branch n context start s b)
    (hfirst : n.tree.Opens group first) (hs : s.Under n.tree first) :
    .enter group ∈ s.path ↔ HasBegun n.tree group first (s :: b) := by
  refine ⟨fun hmem => hb.hasBegun hn hfirst hmem hs, ?_⟩
  rintro ⟨since, p, before, heq, -⟩
  have hopening : ⟨.enter first, .enter group :: p⟩ ∈ s :: b := by simp [heq]
  exact hb.mem_path_of_mem hn hopening List.mem_cons_self

/-- As long as the quantifier has not been entered, the branch has stayed in the iteration. -/
theorem Branch.not_mem_path_iff (hn : n.tree.WellFormed) (hb : Branch n context start s b)
    (hfirst : n.tree.Opens group first) (hs : s.Under n.tree first) :
    .enter group ∉ s.path ↔ ∀ s' ∈ s :: b, s'.Under n.tree first := by
  induction hb with
  | start => exact ⟨fun _ => List.forall_mem_singleton.mpr hs, fun _ => nofun⟩
  | @next s s' b hb hmove ih =>
    have hmove := hmove.moves hn
    constructor
    · intro hmem
      have hbefore := hmove.stayed hn hfirst hmem hs
      have hentered : .enter group ∉ s.path := fun h =>
        hmem (Branch.mem_path_of_mem hn (hb.next ‹_›) (List.mem_cons_of_mem _ List.mem_cons_self) h)
      exact List.forall_mem_cons.mpr ⟨hs, (ih hbefore).mp hentered⟩
    · intro hall
      obtain ⟨-, hall⟩ := List.forall_mem_cons.mp hall
      have hbefore := (List.forall_mem_cons.mp hall).1
      have hentered := (ih hbefore).mpr hall
      rcases hmove.path with hpath | ⟨e, hpath, he⟩
      · rwa [hpath]
      · rw [hpath, List.mem_cons, not_or]
        refine ⟨fun heq => ?_, hentered⟩
        obtain ⟨g, a, hg, hskip, -⟩ := id hfirst
        obtain ⟨htask, -⟩ := he group g heq.symm hg hskip
        unfold Stop.Under at hbefore
        rw [htask] at hbefore
        exact hfirst.not_under hn hbefore

theorem Branch.within_body (hn : n.tree.WellFormed) {look : NodeId} {l : LookAround}
    (hl : n.tree.kind look = .look l) (hb : Branch n context (.enter l.body) s b) :
    s.Under n.tree l.body ∨ s.task = .enter l.matchFound := by
  induction hb with
  | start => exact .inl (.refl n.tree l.body)
  | next _ hs ih => exact (hs.moves hn).within_body hn hl ih

/-- A walk that leaves the first term of an iteration in which it has stayed has begun after a class of
this iteration. -/
theorem Branch.hasConsumed_iff (hn : n.tree.WellFormed) (hstart : start.Begins n.tree)
    {p : List PathElement} (hb : Branch n context start ⟨.leave first, p⟩ b)
    (hfirst : n.tree.Opens group first) :
    HasConsumed n.tree first start (⟨.leave first, p⟩ :: b) ↔
      ∀ s ∈ ⟨.leave first, p⟩ :: b, s.Under n.tree first := by
  refine ⟨fun ⟨_, _, _, _, _, hall⟩ => hall, fun hall => ?_⟩
  obtain ⟨a, ha, -⟩ := hfirst.exists_term hn
  have hparent := hn.parent_of_term ha
  have hunder : Stop.Under n.tree first ⟨start, []⟩ := hall _ hb.start_mem
  cases hstart with
  | resume hcls => exact ⟨_, _, rfl, hcls, hunder, hall⟩
  | root =>
    cases hn.eq_of_under_of_parent_none hunder hn.root_parent
    cases hn.root_parent.symm.trans hparent
  | @body look l hl hdirection =>
    -- The walk does not come out of the body, but the first term is above.
    rcases hb.within_body hn hl with hwithin | hfound
    · have hbody := hn.parent_body hl
      obtain rfl := hn.under_antisymm hwithin hunder
      obtain rfl := Option.some.inj (hbody.symm.trans hparent)
      simp [Tree.terms, hl] at ha
    · cases hfound

end Branches

end Nfa

end PatternAutomata
