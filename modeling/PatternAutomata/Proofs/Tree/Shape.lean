import PatternAutomata.Tree.Basic

/-!
# The shape of a tree

In a well-formed tree children are numbered before their parents, every node knows its place, and
below each node stands what its kind asks for. All nodes of the pattern are reachable, and the
capture groups below a group lie in its range.
-/

namespace PatternAutomata

/-! ## Quantifiers -/

theorem Group.isQuantifier_of_isLoop {g : Group} (h : g.isLoop = true) : g.isQuantifier = true := by
  unfold isLoop at h
  rw [isQuantifier, h, Bool.true_or]

theorem Group.number?_of_isQuantifier {g : Group} (h : g.isQuantifier = true) : g.number? = none := by
  unfold number?
  split
  · rename_i n hrole
    simp [isQuantifier, hrole] at h
  · rfl

/-! ## Ranges of capture groups -/

/-- The capture groups inside a group, and those that it sets itself, are numbered from `lo` to before
`hi`. -/
def NodeKind.FitsIn (lo hi : Nat) : NodeKind → Prop
  | .group g => (lo ≤ g.innerStart ∧ g.innerEnd ≤ hi) ∧
      ∀ n, g.number? = some n → lo ≤ n ∧ n < hi
  | _ => True

theorem NodeKind.FitsIn.mono {kind : NodeKind} {lo hi lo' hi' : Nat} (h : kind.FitsIn lo hi)
    (hlo : lo' ≤ lo) (hhi : hi ≤ hi') : kind.FitsIn lo' hi' := by
  cases kind with
  | group g =>
    refine ⟨?_, fun n hn => ?_⟩
    · exact ⟨Nat.le_trans hlo h.1.1, Nat.le_trans h.1.2 hhi⟩
    · exact ⟨Nat.le_trans hlo (h.2 n hn).1, Nat.lt_of_lt_of_le (h.2 n hn).2 hhi⟩
  | _ => trivial

theorem NodeKind.FitsIn.inter {kind : NodeKind} {lo hi lo' hi' : Nat} (h : kind.FitsIn lo hi)
    (h' : kind.FitsIn lo' hi') : kind.FitsIn (max lo lo') (min hi hi') := by
  cases kind with
  | group g =>
    exact ⟨⟨Nat.max_le.mpr ⟨h.1.1, h'.1.1⟩, Nat.le_min.mpr ⟨h.1.2, h'.1.2⟩⟩, fun n hn =>
      ⟨Nat.max_le.mpr ⟨(h.2 n hn).1, (h'.2 n hn).1⟩, Nat.lt_min.mpr ⟨(h.2 n hn).2, (h'.2 n hn).2⟩⟩⟩
  | _ => trivial

/-- All capture groups from a node down are numbered from `lo` to before `hi`. -/
inductive Within (kind : NodeId → NodeKind) (lo hi : Nat) : NodeId → Prop
  | node {id : NodeId} (here : (kind id).FitsIn lo hi)
    (children : ∀ c ∈ (kind id).children, Within kind lo hi c) : Within kind lo hi id

namespace Within

variable {kind : NodeId → NodeKind} {lo hi lo' hi' : Nat} {id : NodeId}

theorem fitsIn (h : Within kind lo hi id) : (kind id).FitsIn lo hi := by
  cases h
  assumption

theorem child (h : Within kind lo hi id) {c : NodeId} (hc : c ∈ (kind id).children) :
    Within kind lo hi c := by
  cases h with
  | node _ children => exact children c hc

theorem mono (h : Within kind lo hi id) (hlo : lo' ≤ lo) (hhi : hi ≤ hi') :
    Within kind lo' hi' id := by
  induction h with
  | node here _ ih => exact .node (here.mono hlo hhi) ih

/-- The captures of a node that lie in two ranges lie in the common part of these. -/
theorem inter (h : Within kind lo hi id) (h' : Within kind lo' hi' id) :
    Within kind (max lo lo') (min hi hi') id := by
  induction h with
  | node here children ih =>
    exact .node (here.inter h'.fitsIn) fun c hc => ih c hc (h'.child hc)

end Within

/-! ## Shapes -/

/-- The node may follow one with the captures from `lo` to before `hi`: its own come later, or it is a
quantifier, whose iterations reset those. -/
def MayFollow (kind : NodeId → NodeKind) (lo hi : Nat) (id : NodeId) : Prop :=
  (∃ hi', Within kind hi hi' id) ∨
    ∃ g, kind id = .group g ∧ g.isQuantifier = true ∧ g.innerStart ≤ lo ∧ hi ≤ g.innerEnd

/-- The second node may come later in a sequence than the first one. -/
def InOrder (kind : NodeId → NodeKind) (c c' : NodeId) : Prop :=
  ∃ lo hi, Within kind lo hi c ∧ MayFollow kind lo hi c'

theorem MayFollow.mono {kind : NodeId → NodeKind} {lo hi lo' hi' : Nat} {id : NodeId}
    (h : MayFollow kind lo hi id) (hlo : lo ≤ lo') (hhi : hi' ≤ hi) : MayFollow kind lo' hi' id := by
  rcases h with ⟨m, h⟩ | ⟨g, hg, hq, hstart, hend⟩
  · exact .inl ⟨m, h.mono hhi (Nat.le_refl _)⟩
  · exact .inr ⟨g, hg, hq, Nat.le_trans hstart hlo, Nat.le_trans hhi hend⟩

/-- The nodes that may come later than a node may all follow the same captures, those of the node. -/
theorem exists_within_mayFollow {kind : NodeId → NodeKind} {lo hi : Nat} {c : NodeId}
    {ids : List NodeId} (hc : Within kind lo hi c) (hids : ∀ c' ∈ ids, InOrder kind c c') :
    ∃ a b, lo ≤ a ∧ b ≤ hi ∧ Within kind a b c ∧ ∀ c' ∈ ids, MayFollow kind a b c' := by
  induction ids with
  | nil => exact ⟨lo, hi, Nat.le_refl _, Nat.le_refl _, hc, nofun⟩
  | cons c' ids ih =>
    obtain ⟨a, b, hlo, hhi, hwithin, hfollow⟩ := ih fun d hd => hids d (List.mem_cons_of_mem _ hd)
    obtain ⟨a', b', hwithin', hfollow'⟩ := hids c' List.mem_cons_self
    refine ⟨max a a', min b b', Nat.le_trans hlo (Nat.le_max_left ..),
      Nat.le_trans (Nat.min_le_left ..) hhi, hwithin.inter hwithin', fun d hd => ?_⟩
    rcases List.mem_cons.mp hd with rfl | hd
    · exact hfollow'.mono (Nat.le_max_right ..) (Nat.min_le_right ..)
    · exact (hfollow d hd).mono (Nat.le_max_left ..) (Nat.min_le_left ..)

/-- Whether a node of the kind can stand in a sequence. -/
def NodeKind.isTerm : NodeKind → Bool
  | .sequence _ | .matchFound => false
  | _ => true

/-- The alternatives are those of a quantifier: one that has terms and, in either order, an empty one
that skips it. An iteration that must happen cannot be skipped. -/
def Group.Iterates (kind : NodeId → NodeKind) (g : Group) : Prop :=
  ∃ body term terms, kind body = .sequence (term :: terms) ∧
    ((g.isLoop = false ∧ g.alternatives = [body]) ∨
      ∃ empty, kind empty = .sequence [] ∧
        (g.alternatives = [body, empty] ∨ g.alternatives = [empty, body]))

theorem Group.Iterates.exists_empty {kind : NodeId → NodeKind} {g : Group} (h : g.Iterates kind)
    (hloop : g.isLoop = true) : ∃ a ∈ g.alternatives, kind a = .sequence [] := by
  obtain ⟨body, term, terms, -, ⟨hno, -⟩ | ⟨empty, hempty, h | h⟩⟩ := h
  · rw [hno] at hloop
    cases hloop
  · exact ⟨empty, by simp [h], hempty⟩
  · exact ⟨empty, by simp [h], hempty⟩

theorem Group.Iterates.congr {kind kind' : NodeId → NodeKind} {g : Group} (h : g.Iterates kind)
    (heq : ∀ c ∈ g.alternatives, kind' c = kind c) : g.Iterates kind' := by
  obtain ⟨body, term, terms, hbody, ⟨hno, h⟩ | ⟨empty, hempty, h⟩⟩ := h
  · exact ⟨body, term, terms, (heq body (by simp [h])).trans hbody, .inl ⟨hno, h⟩⟩
  · have hmem : body ∈ g.alternatives ∧ empty ∈ g.alternatives := by
      rcases h with h | h <;> simp [h]
    exact ⟨body, term, terms, (heq body hmem.1).trans hbody,
      .inr ⟨empty, (heq empty hmem.2).trans hempty, h⟩⟩

/-- What a kind asks of the nodes below: a group has sequences with its inner captures, and if it
stands for a quantifier the alternatives of one; a sequence has terms in order; the body of a
look-around is a plain group around its captures. -/
def NodeKind.WellShaped (kind : NodeId → NodeKind) : NodeKind → Prop
  | .group g => (∀ a ∈ g.alternatives, ∃ terms, kind a = .sequence terms) ∧
      (g.isQuantifier = true → g.Iterates kind) ∧
      ∀ a ∈ g.alternatives, Within kind g.innerStart g.innerEnd a
  | .sequence terms => (∀ c ∈ terms, (kind c).isTerm = true) ∧ terms.Pairwise (InOrder kind)
  | .look l => (∃ g, kind l.body = .group g ∧ g.role = .plain ∧
      Within kind g.innerStart g.innerEnd l.body) ∧ kind l.matchFound = .matchFound
  | _ => True

namespace Tree

variable {t : Tree} {id c : NodeId}

structure WellFormed (t : Tree) : Prop where
  child_lt : ∀ id, ∀ c ∈ (t.kind id).children, c < id
  shaped : ∀ id, (t.kind id).WellShaped t.kind
  nodup : ∀ id, (t.kind id).children.Nodup
  parent_child : ∀ id, ∀ c ∈ (t.kind id).children, t.parent c = some id
  child_of_parent : ∀ id c, t.parent c = some id → c ∈ (t.kind id).children
  index_term : ∀ id k c, (t.terms id)[k]? = some c → (t.place c).index = k
  root_lt : t.root < t.size
  root_group : ∃ g, t.kind t.root = .group g
  root_parent : t.parent t.root = none
  matchFound_parent : t.parent t.matchFound = none
  matchFound : t.kind t.matchFound = .matchFound
  /-- Group 0 is the whole pattern only. -/
  within_root : ∀ c ∈ (t.kind t.root).children, ∃ hi, Within t.kind 1 hi c

theorem lt_size_of_child (hc : c ∈ (t.kind id).children) : id < t.size := by
  by_cases h : id < t.size
  · exact h
  · rw [kind, Array.getD_eq_getD_getElem?, Array.getElem?_eq_none_iff.mpr (Nat.le_of_not_lt h)] at hc
    cases hc

theorem kind_of_terms {terms : List NodeId} (h : t.terms id = terms) (hne : terms ≠ []) :
    t.kind id = .sequence terms := by
  unfold Tree.terms at h
  split at h
  · rename_i heq
    rw [heq, h]
  · exact absurd h.symm hne

theorem group?_eq_some {g : Group} : t.group? id = some g ↔ t.kind id = .group g := by
  unfold group?
  constructor
  · intro h
    split at h
    · rename_i heq
      cases h
      exact heq
    · cases h
  · intro h
    rw [h]

/-! ## Nodes by their kind -/

section Kinds

variable {g : Group} {l : LookAround} {a : NodeId}

theorem mem_children_of_alternative (hg : t.kind id = .group g) (ha : a ∈ g.alternatives) :
    a ∈ (t.kind id).children := by
  rw [hg]
  exact ha

theorem kind_of_getElem? {k : Nat} (hc : (t.terms a)[k]? = some c) :
    t.kind a = .sequence (t.terms a) :=
  kind_of_terms rfl (List.ne_nil_of_mem (List.mem_of_getElem? hc))

theorem mem_children_of_mem_terms (hc : c ∈ t.terms a) : c ∈ (t.kind a).children := by
  rw [kind_of_terms rfl (List.ne_nil_of_mem hc)]
  exact hc

theorem mem_children_of_term {k : Nat} (hc : (t.terms a)[k]? = some c) :
    c ∈ (t.kind a).children := mem_children_of_mem_terms (List.mem_of_getElem? hc)

theorem body_mem_children (hl : t.kind id = .look l) : l.body ∈ (t.kind id).children := by
  rw [hl]
  exact List.mem_cons_self

theorem matchFound_mem_children (hl : t.kind id = .look l) :
    l.matchFound ∈ (t.kind id).children := by
  rw [hl]
  simp [NodeKind.children]

namespace WellFormed

variable (h : t.WellFormed)
include h

theorem shaped_of_kind {kind : NodeKind} (hk : t.kind id = kind) : kind.WellShaped t.kind :=
  hk ▸ h.shaped id

theorem parent_alternative (hg : t.kind id = .group g) (ha : a ∈ g.alternatives) :
    t.parent a = some id := h.parent_child id a (mem_children_of_alternative hg ha)

theorem parent_of_term {k : Nat} (hc : (t.terms a)[k]? = some c) : t.parent c = some a :=
  h.parent_child a c (mem_children_of_term hc)

theorem isTerm_of_term {k : Nat} (hc : (t.terms a)[k]? = some c) : (t.kind c).isTerm = true :=
  (h.shaped_of_kind (kind_of_getElem? hc)).1 c (List.mem_of_getElem? hc)

theorem parent_body (hl : t.kind id = .look l) : t.parent l.body = some id :=
  h.parent_child id l.body (body_mem_children hl)

theorem parent_matchFound (hl : t.kind id = .look l) : t.parent l.matchFound = some id :=
  h.parent_child id l.matchFound (matchFound_mem_children hl)

theorem body_lt (hl : t.kind id = .look l) : l.body < id :=
  h.child_lt id l.body (body_mem_children hl)

theorem kind_matchFound (hl : t.kind id = .look l) : t.kind l.matchFound = .matchFound :=
  (h.shaped_of_kind hl).2

end WellFormed

end Kinds

/-! ## Reachable nodes -/

/-- The nodes of the pattern: the root, and what stands below such nodes. -/
inductive InPattern (t : Tree) : NodeId → Prop
  | root : InPattern t t.root
  | child {id c : NodeId} (h : InPattern t id) (hc : c ∈ (t.kind id).children) : InPattern t c

theorem getD_setIfInBounds_true (marks : Array Bool) (c i : Nat) :
    (marks.setIfInBounds c true).getD i false = true ↔
      marks.getD i false = true ∨ c = i ∧ c < marks.size := by
  simp only [Array.getD_eq_getD_getElem?, Array.getElem?_setIfInBounds]
  by_cases h : c = i
  · subst h
    by_cases hlt : c < marks.size
    · simp [hlt]
    · simp [hlt]
  · simp [h]

theorem markAll (marks : Array Bool) (cs : List NodeId) :
    (cs.foldl (fun ms c => ms.setIfInBounds c true) marks).size = marks.size ∧
      ∀ i, (cs.foldl (fun ms c => ms.setIfInBounds c true) marks).getD i false = true ↔
        marks.getD i false = true ∨ i ∈ cs ∧ i < marks.size := by
  induction cs generalizing marks with
  | nil => simp
  | cons c cs ih =>
    obtain ⟨hsize, hi⟩ := ih (marks.setIfInBounds c true)
    refine ⟨by rw [List.foldl_cons, hsize, Array.size_setIfInBounds], fun i => ?_⟩
    rw [List.foldl_cons, hi, getD_setIfInBounds_true, Array.size_setIfInBounds, List.mem_cons,
      or_assoc]
    refine or_congr_right ?_
    constructor
    · rintro (⟨rfl, hlt⟩ | ⟨hmem, hlt⟩)
      · exact ⟨.inl rfl, hlt⟩
      · exact ⟨.inr hmem, hlt⟩
    · rintro ⟨rfl | hmem, hlt⟩
      · exact .inl ⟨rfl, hlt⟩
      · exact .inr ⟨hmem, hlt⟩

theorem markChildren_spec (marks : Array Bool) :
    (t.markChildren id marks).size = marks.size ∧
      ∀ i, (t.markChildren id marks).getD i false = true ↔ marks.getD i false = true ∨
        marks.getD id false = true ∧ i ∈ (t.kind id).children ∧ i < marks.size := by
  unfold markChildren
  split
  · rename_i h
    simpa [h] using markAll marks (t.kind id).children
  · rename_i h
    simp [h]

/-- Below `n` everything that stands below a marked node gets marked. From `n` on nothing changes,
since children have smaller numbers. -/
theorem markDown_spec (hlt : ∀ id, ∀ c ∈ (t.kind id).children, c < id) (n : Nat)
    (marks : Array Bool) (hsize : marks.size = t.size) (hn : n ≤ t.size) :
    (t.markDown n marks).size = t.size ∧
      (∀ i, marks.getD i false = true → (t.markDown n marks).getD i false = true) ∧
      (∀ i, n ≤ i → (t.markDown n marks).getD i false = true → marks.getD i false = true) ∧
      ∀ id < n, (t.markDown n marks).getD id false = true → ∀ c ∈ (t.kind id).children,
        (t.markDown n marks).getD c false = true := by
  induction n generalizing marks with
  | zero => exact ⟨hsize, fun _ h => h, fun _ _ h => h, fun _ h => absurd h (Nat.not_lt_zero _)⟩
  | succ n ih =>
    obtain ⟨hsize1, hmark⟩ := @markChildren_spec t n marks
    obtain ⟨h1, h2, h3, h4⟩ := ih (t.markChildren n marks) (hsize1.trans hsize) (by omega)
    refine ⟨h1, fun i hi => h2 i ((hmark i).mpr (.inl hi)), fun i hi hres => ?_,
      fun id hid hres c hc => ?_⟩
    · rcases (hmark i).mp (h3 i (by omega) hres) with h | ⟨-, hc, -⟩
      · exact h
      · exact absurd (hlt n i hc) (Nat.not_lt.mpr (Nat.le_of_succ_le hi))
    · by_cases hid' : id < n
      · exact h4 id hid' hres c hc
      · obtain rfl : id = n := by omega
        have hlt' : c < marks.size :=
          hsize ▸ Nat.lt_trans (hlt id c hc) (Nat.lt_of_succ_le hn)
        have hmarked := (hmark id).mp (h3 id (Nat.le_refl _) hres)
        refine h2 c ((hmark c).mpr (.inr ⟨?_, hc, hlt'⟩))
        rcases hmarked with h | ⟨h, -, -⟩ <;> exact h

theorem WellFormed.mem_reachable (h : t.WellFormed) (hid : t.InPattern id) : id ∈ t.reachable := by
  have hsize : ((Array.replicate t.size false).setIfInBounds t.root true).size = t.size := by simp
  obtain ⟨-, hkept, -, hclosed⟩ := markDown_spec h.child_lt t.size _ hsize (Nat.le_refl _)
  have hmark : ∀ id, t.InPattern id → id < t.size ∧ (t.markDown t.size
      ((Array.replicate t.size false).setIfInBounds t.root true)).getD id false = true := by
    intro id hid
    induction hid with
    | root =>
      refine ⟨h.root_lt, hkept _ ((getD_setIfInBounds_true ..).mpr (.inr ⟨rfl, ?_⟩))⟩
      simpa using h.root_lt
    | child _ hc ih =>
      exact ⟨Nat.lt_trans (h.child_lt _ _ hc) ih.1, hclosed _ ih.1 ih.2 _ hc⟩
  exact List.mem_filter.mpr ⟨List.mem_range.mpr (hmark id hid).1, (hmark id hid).2⟩

theorem inPattern_of_markDown (n : Nat) {marks : Array Bool}
    (h : ∀ i, marks.getD i false = true → t.InPattern i) :
    ∀ i, (t.markDown n marks).getD i false = true → t.InPattern i := by
  induction n generalizing marks with
  | zero => exact h
  | succ n ih =>
    refine ih fun i hi => ?_
    rcases ((markChildren_spec marks).2 i).mp hi with hi | ⟨hn, hc, -⟩
    · exact h i hi
    · exact (h n hn).child hc

theorem inPattern_of_mem_reachable (hid : id ∈ t.reachable) : t.InPattern id := by
  refine inPattern_of_markDown t.size (fun i hi => ?_) id (List.mem_filter.mp hid).2
  rcases (getD_setIfInBounds_true ..).mp hi with hi | ⟨rfl, -⟩
  · rw [Array.getD_eq_getD_getElem?, Array.getElem?_replicate] at hi
    split at hi <;> cases hi
  · exact .root

/-- Below the root no group has group 0 inside. -/
theorem WellFormed.within_of_inPattern (h : t.WellFormed) (hid : t.InPattern id) :
    id = t.root ∨ ∃ hi, Within t.kind 1 hi id := by
  induction hid with
  | root => exact .inl rfl
  | child _ hc ih =>
    rcases ih with rfl | ⟨hi, hwithin⟩
    · exact .inr (h.within_root _ hc)
    · exact .inr ⟨hi, hwithin.child hc⟩

end Tree

end PatternAutomata
