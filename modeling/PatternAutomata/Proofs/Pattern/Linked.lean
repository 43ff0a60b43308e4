import PatternAutomata.Proofs.Pattern.Reader
import Mathlib.Logic.Relation

/-!
# The nodes of a pattern form a tree

A quantifier uses the atom before it once and copies it for every further iteration, so no node is
shared. `linked_parse` collects what this means for a finished tree, also for the nodes that a
quantifier dropped: every node has one place, the places lead back the way that the children lead,
and below each node stands what its kind asks for.
-/

namespace PatternAutomata

namespace Tree

/-- The node `d` stands below `id`, at any depth. -/
def Below (t : Tree) (id d : NodeId) : Prop :=
  Relation.TransGen (fun id c => c ∈ (t.kind id).children) id d

theorem Below.within {t : Tree} {id d : NodeId} {lo hi : Nat} (h : t.Below id d)
    (hchildren : ∀ c ∈ (t.kind id).children, Within t.kind lo hi c) : Within t.kind lo hi d := by
  induction h with
  | single hc => exact hchildren _ hc
  | tail _ hc ih => exact ih.child hc

/-- The nodes form a tree, whose places invert the children, and each kind of node has children as it
should. -/
structure Linked (t : Tree) : Prop where
  /-- No node is twice the child of one parent. -/
  nodup : ∀ id, (t.kind id).children.Nodup
  /-- No node is the child of two parents. -/
  disjoint : ∀ id id', id ≠ id' → (t.kind id).children.Disjoint (t.kind id').children
  child_lt : ∀ id, ∀ c ∈ (t.kind id).children, c < id
  root_parent : t.parent t.root = none
  parent_iff : ∀ id c, t.parent c = some id ↔ c ∈ (t.kind id).children
  index_iff : ∀ id terms, t.kind id = .sequence terms → ∀ k c,
    terms[k]? = some c ↔ t.parent c = some id ∧ (t.place c).index = k
  group : ∀ id g, t.kind id = .group g → ∀ c ∈ g.alternatives, ∃ terms, t.kind c = .sequence terms
  sequence : ∀ id terms, t.kind id = .sequence terms → ∀ c ∈ terms,
    t.kind c ≠ .matchFound ∧ ∀ terms', t.kind c ≠ .sequence terms'
  /-- The body of a look-around is a plain group, and the node that ends it is its own. -/
  look : ∀ id l, t.kind id = .look l →
    (∃ g, t.kind l.body = .group g ∧ g.role = .plain ∧ g.number? = none ∧ g.isQuantifier = false) ∧
      t.kind l.matchFound = .matchFound ∧ t.parent l.matchFound = some id ∧
      l.matchFound ≠ t.matchFound ∧
      ∀ id' l', t.kind id' = .look l' → l'.matchFound = l.matchFound → id' = id
  quantifier : ∀ id g, t.kind id = .group g → g.isQuantifier = true → g.Iterates t.kind
  captures : ∀ id g, t.kind id = .group g → ∀ d, t.Below id d → ∀ g' n, t.kind d = .group g' →
    g'.number? = some n → g.innerStart ≤ n ∧ n < g.innerEnd

theorem WellFormed.linked {t : Tree} (h : t.WellFormed) : t.Linked where
  nodup := h.nodup
  disjoint id id' hne c hc hc' :=
    hne (Option.some.inj ((h.parent_child id c hc).symm.trans (h.parent_child id' c hc')))
  child_lt := h.child_lt
  root_parent := h.root_parent
  parent_iff id c := ⟨h.child_of_parent id c, h.parent_child id c⟩
  index_iff id terms hk k c := by
    have hterms : t.terms id = terms := by rw [Tree.terms, hk]
    constructor
    · intro hc
      refine ⟨h.parent_child id c ?_, h.index_term id k c (hterms ▸ hc)⟩
      rw [hk]
      exact List.mem_of_getElem? hc
    · rintro ⟨hparent, rfl⟩
      have hc := h.child_of_parent id c hparent
      rw [hk] at hc
      obtain ⟨i, hi⟩ := List.mem_iff_getElem?.mp hc
      rwa [h.index_term id i c (hterms ▸ hi)]
  group id g hk := (h.shaped_of_kind hk).1
  sequence id terms hk c hc := by
    have hterm := (h.shaped_of_kind hk).1 c hc
    refine ⟨fun hfound => ?_, fun terms' hsequence => ?_⟩
    · rw [hfound] at hterm
      cases hterm
    · rw [hsequence] at hterm
      cases hterm
  look id l hk := by
    obtain ⟨⟨g, hbody, hrole, -⟩, hfound⟩ := h.shaped_of_kind hk
    refine ⟨⟨g, hbody, hrole, ?_, ?_⟩, hfound, h.parent_matchFound hk, fun heq => ?_,
      fun id' l' hk' heq => ?_⟩
    · rw [Group.number?, hrole]
    · simp [Group.isQuantifier, hrole]
    · cases (heq ▸ h.parent_matchFound hk).symm.trans h.matchFound_parent
    · exact Option.some.inj ((h.parent_matchFound hk').symm.trans (heq ▸ h.parent_matchFound hk))
  quantifier id g hk hq := (h.shaped_of_kind hk).2.1 hq
  captures id g hk d hd g' n hk' hn := by
    have hwithin : Within t.kind g.innerStart g.innerEnd d :=
      hd.within (by rw [hk]; exact (h.shaped_of_kind hk).2.2)
    have hfits := hwithin.fitsIn
    rw [hk'] at hfits
    exact hfits.2 n hn

end Tree

namespace Pattern

variable {pattern : String} {flags : Flags} {budget : Budget} {properties : PropertyLookup} {t : Tree}

end Pattern

end PatternAutomata
