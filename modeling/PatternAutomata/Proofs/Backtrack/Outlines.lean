import Mathlib.Data.List.Forall2
import PatternAutomata.Proofs.Backtrack.Ways
import PatternAutomata.Proofs.CodePoints
import PatternAutomata.Proofs.Tree.Outline

/-!
# Nodes with one outline match alike

A recorder that does not tell look-arounds apart, such as that of the captures, sees the same ways for
all nodes that have the same outline. So a copy matches as its original does.
-/

namespace PatternAutomata

namespace Outline

/-- The terms, if the outline is that of a sequence. -/
def terms : Outline → List Outline
  | sequence os => os
  | _ => []

/-- The alternatives, if the outline is that of a group. -/
def alternatives : Outline → List Outline
  | group _ _ _ os => os
  | _ => []

end Outline

namespace Tree

/-- The nodes of the tree, as an arena that is full. -/
def arena (t : Tree) : Arena := { limit := t.size, kinds := t.kinds }

/-- The outline of a node. -/
def outlineAt (t : Tree) (id : NodeId) : Outline := t.arena.outline id

variable {t : Tree} {x : Subject} {id id' : NodeId}

theorem WellFormed.ordered (h : t.WellFormed) : t.arena.Ordered := h.child_lt

theorem WellFormed.outlineAt_eq (h : t.WellFormed) (id : NodeId) :
    t.outlineAt id = (t.kind id).outline t.outlineAt := Arena.outline_eq h.ordered id

theorem WellFormed.map_terms (h : t.WellFormed) (id : NodeId) :
    (t.terms id).map t.outlineAt = (t.outlineAt id).terms := by
  rw [h.outlineAt_eq, terms]
  cases t.kind id <;> rfl

theorem WellFormed.map_alternatives (h : t.WellFormed) (id : NodeId) :
    (t.alternatives id).map t.outlineAt = (t.outlineAt id).alternatives := by
  rw [h.outlineAt_eq, alternatives]
  cases t.kind id <;> rfl

/-! ## Kinds from outlines -/

theorem WellFormed.kind_of_group (h : t.WellFormed) {role : GroupRole} {lo hi : Nat}
    {os : List Outline} (ho : t.outlineAt id = .group role lo hi os) :
    ∃ alternatives, t.kind id = .group ⟨alternatives, role, lo, hi⟩ ∧
      alternatives.map t.outlineAt = os := by
  rw [h.outlineAt_eq] at ho
  cases hk : t.kind id with
  | group g =>
    rw [hk] at ho
    injection ho with hrole hlo hhi hos
    exact ⟨g.alternatives, by rw [← hrole, ← hlo, ← hhi], hos⟩
  | _ =>
    rw [hk] at ho
    cases ho

theorem WellFormed.kind_of_sequence (h : t.WellFormed) {os : List Outline}
    (ho : t.outlineAt id = .sequence os) :
    ∃ terms, t.kind id = .sequence terms ∧ terms.map t.outlineAt = os := by
  rw [h.outlineAt_eq] at ho
  cases hk : t.kind id with
  | sequence terms =>
    rw [hk] at ho
    injection ho with hos
    exact ⟨terms, rfl, hos⟩
  | _ =>
    rw [hk] at ho
    cases ho

theorem WellFormed.kind_of_look (h : t.WellFormed) {direction : Direction} {negated : Bool}
    {o : Outline} (ho : t.outlineAt id = .look direction negated o) :
    ∃ body matchFound, t.kind id = .look ⟨direction, negated, body, matchFound⟩ ∧
      t.outlineAt body = o := by
  rw [h.outlineAt_eq] at ho
  cases hk : t.kind id with
  | look l =>
    rw [hk] at ho
    injection ho with hdirection hnegated hbody
    exact ⟨l.body, l.matchFound, by rw [← hdirection, ← hnegated], hbody⟩
  | _ =>
    rw [hk] at ho
    cases ho

/-- Nodes with nothing below them that have the same outline are of the same kind. -/
theorem WellFormed.kind_eq_of_leaf (h : t.WellFormed) (ho : t.outlineAt id = t.outlineAt id')
    (hg : ∀ g, t.kind id ≠ .group g) (hl : ∀ l, t.kind id ≠ .look l)
    (hs : ∀ terms, t.kind id ≠ .sequence terms) : t.kind id' = t.kind id := by
  rw [h.outlineAt_eq, h.outlineAt_eq] at ho
  cases hk : t.kind id <;> cases hk' : t.kind id' <;> rw [hk, hk'] at ho <;> try cases ho
  case charClass.charClass set set' =>
    injection ho with hmembers
    rw [CodePointSet.eq_of_mem_iff fun c => (Set.ext_iff.mp hmembers c).symm]
  case group => exact absurd hk (hg _)
  case look => exact absurd hk (hl _)
  case sequence => exact absurd hk (hs _)
  all_goals rfl

/-! ## Ways from outlines -/

section Lists

variable {α β γ : Type} {l l' : List α} {f : α → β} {g g' : α → γ}

theorem map_eq_of_map_eq (h : l.map f = l'.map f)
    (hfg : ∀ a ∈ l, ∀ b ∈ l', f a = f b → g a = g' b) : l.map g = l'.map g' := by
  induction l generalizing l' with
  | nil =>
    rw [List.map_nil, eq_comm, List.map_eq_nil_iff] at h
    rw [h]
    rfl
  | cons a l ih =>
    obtain ⟨b, l'', rfl, hab, hl⟩ := List.map_eq_cons_iff.mp h.symm
    rw [List.map_cons, List.map_cons, hfg a (by simp) b (by simp) hab.symm,
      ih hl.symm fun c hc d hd => hfg c (by simp [hc]) d (by simp [hd])]

end Lists

variable {σ : Type} {r : Recorder σ} {next : NodeId → Spot σ → List (Spot σ)} {g g' : Group}

theorem inTurn_of_map_eq {ids ids' : List NodeId} (h : ids.map next = ids'.map next) :
    inTurn next ids = inTurn next ids' := by
  induction ids generalizing ids' with
  | nil =>
    rw [List.map_nil, eq_comm, List.map_eq_nil_iff] at h
    rw [h]
  | cons id ids ih =>
    obtain ⟨id', ids'', rfl, hid, hids⟩ := List.map_eq_cons_iff.mp h.symm
    funext s
    rw [inTurn, inTurn, hid, ih hids.symm]

section Alternatives

variable {as as' : List NodeId} (role : GroupRole) (lo hi : Nat)

theorem canSkip_of_map_eq
    (h : as.map (fun a => (t.terms a).map next) = as'.map fun a => (t.terms a).map next) :
    t.canSkip ⟨as, role, lo, hi⟩ = t.canSkip ⟨as', role, lo, hi⟩ := by
  have hempty : as.map (fun a => (t.terms a).isEmpty) = as'.map fun a => (t.terms a).isEmpty :=
    map_eq_of_map_eq h fun a _ b _ hab => by simpa using congrArg List.isEmpty hab
  have hany := congrArg (List.any · id) hempty
  rw [List.any_map, List.any_map] at hany
  exact congrArg (_ && ·) hany

theorem iteration_of_map_eq {first first' : NodeId} {others others' : List NodeId}
    (hskip : t.canSkip g = t.canSkip g') (henter : g.enter r = g'.enter r)
    (hexit : g.exit r = g'.exit r)
    (h : (first :: others).map next = (first' :: others').map next) :
    iteration t r g next first others = iteration t r g' next first' others' := by
  funext s
  obtain ⟨hfirst, hothers⟩ := List.cons.inj h
  simp only [iteration, henter, hexit, hskip, hfirst, inTurn_of_map_eq hothers]

/-- Groups that only differ in their alternatives, if these have terms with the same ways. -/
theorem groupWays_of_map_eq
    (h : as.map (fun a => (t.terms a).map next) = as'.map fun a => (t.terms a).map next)
    (count : Nat) :
    groupWays t r ⟨as, role, lo, hi⟩ next count = groupWays t r ⟨as', role, lo, hi⟩ next count := by
  have hskip := canSkip_of_map_eq role lo hi h
  induction count with
  | zero => rfl
  | succ count ih =>
    funext s
    rw [groupWays, groupWays, List.flatMap_def, List.flatMap_def]
    refine congrArg _ (map_eq_of_map_eq h fun a _ b _ hab => ?_)
    cases ha : t.terms a with
    | nil =>
      rw [ha, List.map_nil, eq_comm, List.map_eq_nil_iff] at hab
      rw [hab]
      rfl
    | cons first others =>
      rw [ha] at hab
      obtain ⟨first', others', hb, -, -⟩ := List.map_eq_cons_iff.mp hab.symm
      rw [hb] at hab ⊢
      simp only [ih, iteration_of_map_eq hskip rfl rfl hab]
      rfl

end Alternatives

/-! ## Look-behinds -/

/-- The class of a node that is one. -/
def class? (t : Tree) (id : NodeId) : Option CodePointSet :=
  match t.kind id with
  | .charClass set => some set
  | _ => none

theorem WellFormed.class?_eq (h : t.WellFormed) (ho : t.outlineAt id = t.outlineAt id') :
    t.class? id = t.class? id' := by
  rw [h.outlineAt_eq, h.outlineAt_eq] at ho
  unfold class?
  cases hk : t.kind id <;> cases hk' : t.kind id' <;> rw [hk, hk'] at ho <;> try cases ho
  case charClass.charClass set set' =>
    injection ho with hmembers
    rw [CodePointSet.eq_of_mem_iff fun c => Set.ext_iff.mp hmembers c]

/-- The classes of each alternative, as far as its terms are classes. -/
def classes? (t : Tree) (id : NodeId) : List (List (Option CodePointSet)) :=
  (t.alternatives id).map fun a => (t.terms a).map t.class?

theorem literalBody?_of_classes? {body : NodeId} :
    LookBehindTable.literalBody? t body = match t.classes? body with
      | [classes] => classes.mapM fun set? => set?
      | _ => none := by
  unfold LookBehindTable.literalBody? classes?
  match t.alternatives body with
  | [] | _ :: _ :: _ => rfl
  | [alternative] =>
    simp only [List.map_cons, List.map_nil]
    rw [List.mapM_map]
    rfl

theorem WellFormed.literalBody?_eq (h : t.WellFormed) {body body' : NodeId}
    (ho : t.outlineAt body = t.outlineAt body') :
    LookBehindTable.literalBody? t body = LookBehindTable.literalBody? t body' := by
  have hclasses : t.classes? body = t.classes? body' := by
    refine map_eq_of_map_eq (f := t.outlineAt) (by rw [h.map_alternatives, ho, h.map_alternatives])
      fun a _ b _ hab => ?_
    exact map_eq_of_map_eq (f := t.outlineAt) (by rw [h.map_terms, hab, h.map_terms])
      fun c _ d _ hcd => h.class?_eq hcd
  rw [literalBody?_of_classes?, hclasses, literalBody?_of_classes?]

/-! ## Ways -/

/-- Nodes with the same outline match alike. -/
theorem WellFormed.ways_eq_of_outlineAt_eq (h : t.WellFormed)
    (hlook : ∀ id id', r.look id = r.look id') (ho : t.outlineAt id = t.outlineAt id') :
    t.ways x r id = t.ways x r id' := by
  induction id using Nat.strongRecOn generalizing id' with
  | ind id ih =>
    have ho' := ho
    rw [h.outlineAt_eq] at ho'
    funext s
    cases hk : t.kind id with
    | group g =>
      rw [hk] at ho'
      obtain ⟨alternatives, hk', hmap⟩ := h.kind_of_group ho'.symm
      have hways : g.alternatives.map (fun a => (t.terms a).map (t.ways x r)) =
          alternatives.map fun a => (t.terms a).map (t.ways x r) :=
        map_eq_of_map_eq hmap.symm fun a ha b _ hab =>
          map_eq_of_map_eq (f := t.outlineAt) (by rw [h.map_terms, hab, h.map_terms])
            fun c hc d _ hcd => ih c (h.term_lt hk ha hc) hcd
      rw [ways_groupWays h hk, ways_groupWays h hk', groupWays_of_map_eq _ _ _ hways.symm]
    | look l =>
      rw [hk] at ho'
      obtain ⟨body, matchFound, hk', hbody⟩ := h.kind_of_look ho'.symm
      have hlt : l.body < id := h.body_lt hk
      rw [ways_look h hk, ways_look h hk', lookWays, lookWays, ih l.body hlt hbody.symm,
        h.literalBody?_eq hbody.symm, hlook id id']
    | sequence terms =>
      rw [hk] at ho'
      obtain ⟨terms', hk', -⟩ := h.kind_of_sequence ho'.symm
      rw [ways_sequence h hk, ways_sequence h hk']
    | _ =>
      have hk' := h.kind_eq_of_leaf ho (by simp [hk]) (by simp [hk]) (by simp [hk])
      simp only [ways_eq_waysWithin h, waysWithin, hk', hk]

end Tree

end PatternAutomata
