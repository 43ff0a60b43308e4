import Mathlib.Logic.Relation
import PatternAutomata.Proofs.Tree.Shape

/-!
# One node under another, and one before another

A node has at most one parent, so the nodes above it form a chain. What stands under one term of a
sequence comes before what stands under a later term. The alternatives of a group are not ordered.
-/

namespace PatternAutomata.Tree

/-- The node `b` is `a` or stands below it. -/
def Under (t : Tree) : NodeId → NodeId → Prop :=
  Relation.ReflTransGen fun id c => c ∈ (t.kind id).children

/-- The nodes stand under two terms of a sequence, and the term of `a` comes first. -/
inductive Before (t : Tree) (a b : NodeId) : Prop
  | intro {q i j x y : Nat} (hij : i < j) (hx : (t.terms q)[i]? = some x)
    (hy : (t.terms q)[j]? = some y) (ha : t.Under x a) (hb : t.Under y b)

variable {t : Tree} {a b c id x : NodeId}

@[refl]
theorem Under.refl (t : Tree) (id : NodeId) : t.Under id id := Relation.ReflTransGen.refl

theorem Under.trans (hab : t.Under a b) (hbc : t.Under b c) : t.Under a c :=
  Relation.ReflTransGen.trans hab hbc

theorem Under.child (h : t.Under a id) (hc : c ∈ (t.kind id).children) : t.Under a c := .tail h hc

theorem under_child (hc : c ∈ (t.kind id).children) : t.Under id c := .single hc

theorem under_term {k : Nat} (hc : (t.terms a)[k]? = some c) : t.Under a c :=
  under_child (mem_children_of_term hc)

namespace WellFormed

variable (h : t.WellFormed)
include h

theorem le_of_under (hab : t.Under a b) : b ≤ a := by
  induction hab with
  | refl => exact Nat.le_refl a
  | tail _ hc ih => exact Nat.le_trans (Nat.le_of_lt (h.child_lt _ _ hc)) ih

theorem under_antisymm (hab : t.Under a b) (hba : t.Under b a) : a = b :=
  Nat.le_antisymm (h.le_of_under hba) (h.le_of_under hab)

/-- What stands under `a` is `a`, or its parent stands under `a` already. -/
theorem under_parent (hab : t.Under a b) (hb : t.parent b = some id) : b = a ∨ t.Under a id := by
  rcases Relation.ReflTransGen.cases_tail hab with heq | ⟨c, hac, hc⟩
  · exact .inl heq
  · refine .inr ?_
    rwa [← Option.some.inj ((h.parent_child c b hc).symm.trans hb)]

theorem under_of_parent (hb : t.parent b = some id) (hab : t.Under a id) : t.Under a b :=
  hab.child (h.child_of_parent id b hb)

theorem eq_of_under_of_parent_none (hab : t.Under a b) (hb : t.parent b = none) : b = a := by
  rcases Relation.ReflTransGen.cases_tail hab with heq | ⟨c, -, hc⟩
  · exact heq
  · cases (h.parent_child c b hc).symm.trans hb

/-- The nodes above a node form a chain. -/
theorem under_or_under (hac : t.Under a c) (hbc : t.Under b c) : t.Under a b ∨ t.Under b a := by
  induction hac with
  | refl => exact .inr hbc
  | @tail d e had hc ih =>
    rcases h.under_parent hbc (h.parent_child d e hc) with rfl | hbd
    · exact .inl (Under.child had hc)
    · exact ih hbd

/-- A term is no sequence, so one that stands above a sequence stands above the group around it. -/
theorem under_group {k : Nat} {group : NodeId} (hx : (t.kind x).isTerm = true) (hxa : t.Under x a)
    (hc : (t.terms a)[k]? = some c) (hgroup : t.parent a = some group) : t.Under x group := by
  rcases h.under_parent hxa hgroup with rfl | hxgroup
  · rw [kind_of_getElem? hc] at hx
    cases hx
  · exact hxgroup

/-- Of two terms of a sequence none stands under the other. -/
theorem index_eq_of_under {i j : Nat} {y : NodeId} (hx : (t.terms a)[i]? = some x)
    (hy : (t.terms a)[j]? = some y) (hxy : t.Under x y) : i = j := by
  rcases h.under_parent hxy (h.parent_of_term hy) with rfl | hxa
  · rw [← h.index_term a i y hx, ← h.index_term a j y hy]
  · have hlt := h.child_lt a x (mem_children_of_term hx)
    exact absurd (h.le_of_under hxa) (Nat.not_le.mpr hlt)

theorem not_before_self : ¬ t.Before a a := by
  rintro ⟨hij, hx, hy, hxa, hya⟩
  rcases h.under_or_under hxa hya with hxy | hyx
  · exact Nat.ne_of_lt hij (h.index_eq_of_under hx hy hxy)
  · exact Nat.ne_of_gt hij (h.index_eq_of_under hy hx hyx)

/-- What comes after a node comes after its parent, or stands under a later term of the same
sequence. -/
theorem before_parent (hab : t.Before a b) (ha : t.parent a = some id) :
    t.Before id b ∨ ∃ i j y : Nat, i < j ∧ (t.terms id)[i]? = some a ∧ (t.terms id)[j]? = some y ∧
      t.Under y b := by
  obtain ⟨hij, hx, hy, hxa, hb⟩ := hab
  rcases h.under_parent hxa ha with rfl | hxid
  · obtain rfl := Option.some.inj ((h.parent_of_term hx).symm.trans ha)
    exact .inr ⟨_, _, _, hij, hx, hy, hb⟩
  · exact .inl ⟨hij, hx, hy, hxid, hb⟩

/-- What comes after a child of a node that is no sequence comes after the node. -/
theorem before_of_parent (hab : t.Before a b) (ha : t.parent a = some id) (hid : t.terms id = []) :
    t.Before id b := by
  refine (h.before_parent hab ha).resolve_right ?_
  rintro ⟨i, j, y, -, hi, -⟩
  rw [hid] at hi
  cases hi

end WellFormed

theorem Before.under (hab : t.Before a b) (hac : t.Under a c) : t.Before c b := by
  obtain ⟨hij, hx, hy, ha, hb⟩ := hab
  exact ⟨hij, hx, hy, ha.trans hac, hb⟩

end PatternAutomata.Tree
