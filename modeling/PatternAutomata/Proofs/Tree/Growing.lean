import PatternAutomata.Proofs.Tree.Shape
import PatternAutomata.Tree.Arena
import Mathlib.Data.List.Forall2

/-!
# Growing keeps the shape

While a tree grows, nodes that have been made wait until they are put below another one. `Sound`
says that every node is put below at most one, and that what stands below has the shape it should.
-/

namespace PatternAutomata

namespace Arena

variable {a b c : Arena} {id : NodeId} {rest pending : List NodeId} {lo hi : Nat}

def kind (a : Arena) (id : NodeId) : NodeKind := a.kinds.getD id .matchFound

/-- Nodes are only added. -/
structure Extends (a b : Arena) : Prop where
  size_le : a.kinds.size ≤ b.kinds.size
  kind_eq : ∀ id < a.kinds.size, b.kind id = a.kind id

namespace Extends

theorem refl (a : Arena) : a.Extends a := ⟨Nat.le_refl _, fun _ _ => rfl⟩

theorem trans (h : a.Extends b) (h' : b.Extends c) : a.Extends c :=
  ⟨Nat.le_trans h.size_le h'.size_le, fun id hid =>
    (h'.kind_eq id (Nat.lt_of_lt_of_le hid h.size_le)).trans (h.kind_eq id hid)⟩

end Extends

/-- The nodes in `pending` wait, each for one place. -/
structure Sound (a : Arena) (pending : List NodeId) : Prop where
  child_lt : ∀ id, ∀ c ∈ (a.kind id).children, c < id
  shaped : ∀ id, (a.kind id).WellShaped a.kind
  nodup : (a.kinds.toList.flatMap NodeKind.children ++ pending).Nodup
  pending_lt : ∀ id ∈ pending, id < a.kinds.size

namespace Sound

theorem perm (h : a.Sound pending) (hp : pending.Perm rest) : a.Sound rest :=
  ⟨h.child_lt, h.shaped, (hp.append_left _).nodup h.nodup,
    fun id hid => h.pending_lt id (hp.mem_iff.mpr hid)⟩

theorem drop_pending (h : a.Sound (pending ++ rest)) : a.Sound rest :=
  ⟨h.child_lt, h.shaped,
    h.nodup.sublist ((List.sublist_append_right pending rest).append_left _),
    fun id hid => h.pending_lt id (List.mem_append_right _ hid)⟩

end Sound

/-! ## Nodes that wait -/

/-- The node can stand in a sequence, and its captures lie in the range. -/
structure IsTerm (a : Arena) (lo hi : Nat) (id : NodeId) : Prop where
  lt : id < a.kinds.size
  isTerm : (a.kind id).isTerm = true
  within : Within a.kind lo hi id

/-- The node is a term that may also follow one with the same captures. -/
structure IsIteration (a : Arena) (lo hi : Nat) (id : NodeId) : Prop extends a.IsTerm lo hi id where
  mayFollow : MayFollow a.kind lo hi id

/-- The node can be an alternative, and its captures lie in the range. -/
structure IsAlternative (a : Arena) (lo hi : Nat) (id : NodeId) : Prop where
  lt : id < a.kinds.size
  sequence : ∃ terms, a.kind id = .sequence terms
  within : Within a.kind lo hi id

theorem within_iff (hs : a.Sound pending) (hab : a.Extends b) (hid : id < a.kinds.size) :
    Within b.kind lo hi id ↔ Within a.kind lo hi id := by
  constructor
  · intro h
    induction h with
    | node here _ ih =>
      rw [hab.kind_eq _ hid] at here ih
      exact .node here fun c hc => ih c hc (Nat.lt_trans (hs.child_lt _ c hc) hid)
  · intro h
    induction h with
    | node here _ ih =>
      have hkind := hab.kind_eq _ hid
      refine .node (hkind ▸ here) fun c hc => ?_
      rw [hkind] at hc
      exact ih c hc (Nat.lt_trans (hs.child_lt _ c hc) hid)

theorem IsTerm.extends (h : a.IsTerm lo hi id) (hs : a.Sound pending) (hab : a.Extends b) :
    b.IsTerm lo hi id :=
  ⟨Nat.lt_of_lt_of_le h.lt hab.size_le, by rw [hab.kind_eq id h.lt]; exact h.isTerm,
    (within_iff hs hab h.lt).mpr h.within⟩

theorem IsTerm.mono {lo' hi' : Nat} (h : a.IsTerm lo hi id) (hlo : lo' ≤ lo) (hhi : hi ≤ hi') :
    a.IsTerm lo' hi' id := ⟨h.lt, h.isTerm, h.within.mono hlo hhi⟩

theorem IsAlternative.extends (h : a.IsAlternative lo hi id) (hs : a.Sound pending)
    (hab : a.Extends b) : b.IsAlternative lo hi id :=
  ⟨Nat.lt_of_lt_of_le h.lt hab.size_le, by rw [hab.kind_eq id h.lt]; exact h.sequence,
    (within_iff hs hab h.lt).mpr h.within⟩

theorem IsAlternative.mono {lo' hi' : Nat} (h : a.IsAlternative lo hi id) (hlo : lo' ≤ lo)
    (hhi : hi ≤ hi') : a.IsAlternative lo' hi' id := ⟨h.lt, h.sequence, h.within.mono hlo hhi⟩

theorem mayFollow_extends (hs : a.Sound pending) (hab : a.Extends b) (hid : id < a.kinds.size)
    (h : MayFollow a.kind lo hi id) : MayFollow b.kind lo hi id := by
  rcases h with ⟨hi', h⟩ | ⟨g, hg, h⟩
  · exact .inl ⟨hi', (within_iff hs hab hid).mpr h⟩
  · exact .inr ⟨g, (hab.kind_eq id hid).trans hg, h⟩

theorem inOrder_extends {ids : List NodeId} (hs : a.Sound pending) (hab : a.Extends b)
    (hlt : ∀ c ∈ ids, c < a.kinds.size) (h : ids.Pairwise (InOrder a.kind)) :
    ids.Pairwise (InOrder b.kind) := by
  refine h.imp_of_mem fun hc hc' => ?_
  rintro ⟨lo, hi, hwithin, hfollow⟩
  exact ⟨lo, hi, (within_iff hs hab (hlt _ hc)).mpr hwithin,
    mayFollow_extends hs hab (hlt _ hc') hfollow⟩

theorem wellShaped_extends {kind : NodeKind} (h : kind.WellShaped a.kind) (hs : a.Sound pending)
    (hab : a.Extends b) (hlt : ∀ c ∈ kind.children, c < a.kinds.size) :
    kind.WellShaped b.kind := by
  cases kind with
  | group g =>
    refine ⟨fun c hc => ?_, fun hq => ?_, fun c hc => ?_⟩
    · rw [hab.kind_eq c (hlt c hc)]
      exact h.1 c hc
    · exact (h.2.1 hq).congr fun c hc => hab.kind_eq c (hlt c hc)
    · exact (within_iff hs hab (hlt c hc)).mpr (h.2.2 c hc)
  | sequence terms =>
    refine ⟨fun c hc => ?_, inOrder_extends hs hab hlt h.2⟩
    rw [hab.kind_eq c (hlt c hc)]
    exact h.1 c hc
  | look l =>
    obtain ⟨⟨g, hbody, hrole, hwithin⟩, hfound⟩ := h
    have hlt1 := hlt l.body (by simp [NodeKind.children])
    have hlt2 := hlt l.matchFound (by simp [NodeKind.children])
    exact ⟨⟨g, (hab.kind_eq _ hlt1).trans hbody, hrole, (within_iff hs hab hlt1).mpr hwithin⟩,
      (hab.kind_eq _ hlt2).trans hfound⟩
  | _ => trivial

theorem IsIteration.extends (h : a.IsIteration lo hi id) (hs : a.Sound pending) (hab : a.Extends b) :
    b.IsIteration lo hi id := ⟨h.toIsTerm.extends hs hab, mayFollow_extends hs hab h.lt h.mayFollow⟩

/-- Iterations may come one after the other. -/
theorem inOrder_of_iterations {ids : List NodeId} (hids : ∀ c ∈ ids, a.IsIteration lo hi c) :
    ids.Pairwise (InOrder a.kind) :=
  List.pairwise_of_forall_mem_list fun c hc c' hc' =>
    ⟨lo, hi, (hids c hc).within, (hids c' hc').mayFollow⟩

/-- They may also come after any term with their captures. -/
theorem inOrder_cons {ids : List NodeId} (hid : a.IsTerm lo hi id)
    (hids : ∀ c ∈ ids, a.IsIteration lo hi c) : (id :: ids).Pairwise (InOrder a.kind) :=
  List.pairwise_cons.mpr ⟨fun c hc => ⟨lo, hi, hid.within, (hids c hc).mayFollow⟩,
    inOrder_of_iterations hids⟩

/-! ## Adding a node -/

theorem extends_push {k : NodeKind} (hb : b.kinds = a.kinds.push k) :
    a.Extends b ∧ b.kind a.kinds.size = k := by
  refine ⟨⟨by rw [hb, Array.size_push]; exact Nat.le_succ _, fun id hid => ?_⟩, ?_⟩
  · simp only [kind, hb, Array.getD_eq_getD_getElem?, Array.getElem?_push]
    rw [if_neg (Nat.ne_of_lt hid)]
  · simp [kind, hb, Array.getD_eq_getD_getElem?]

/-- A number is that of a node from before, of the new one, or of none. -/
theorem push_cases {k : NodeKind} (hb : b.kinds = a.kinds.push k) (id : NodeId) :
    id < a.kinds.size ∨ id = a.kinds.size ∨ b.kind id = .matchFound := by
  rcases Nat.lt_trichotomy id a.kinds.size with h | h | h
  · exact .inl h
  · exact .inr (.inl h)
  · have hsize : b.kinds.size ≤ id := by
      rw [hb, Array.size_push]
      exact h
    refine .inr (.inr ?_)
    rw [kind, Array.getD_eq_getD_getElem?, Array.getElem?_eq_none_iff.mpr hsize]
    rfl

/-- The node that comes next is not below any other, and does not wait. -/
theorem Sound.next_not_mem (hs : a.Sound pending) :
    a.kinds.size ∉ a.kinds.toList.flatMap NodeKind.children ++ pending := by
  intro hmem
  rcases List.mem_append.mp hmem with hmem | hmem
  · obtain ⟨kind, hkind, hc⟩ := List.mem_flatMap.mp hmem
    obtain ⟨i, hi, rfl⟩ := List.mem_iff_getElem.mp hkind
    have hi' : i < a.kinds.size := by simpa using hi
    have hkind : a.kind i = a.kinds.toList[i] := by simp [Arena.kind, hi']
    rw [← hkind] at hc
    exact absurd (hs.child_lt i _ hc) (Nat.not_lt.mpr (Nat.le_of_lt hi'))
  · exact absurd (hs.pending_lt _ hmem) (Nat.lt_irrefl _)

theorem Sound.push {k : NodeKind} (hs : a.Sound (k.children ++ rest)) (hk : k.WellShaped a.kind)
    (hb : b.kinds = a.kinds.push k) : b.Sound (a.kinds.size :: rest) := by
  obtain ⟨hab, hnew⟩ := extends_push hb
  have hlt : ∀ c ∈ k.children, c < a.kinds.size := fun c hc =>
    hs.pending_lt c (List.mem_append_left _ hc)
  have hsize : b.kinds.size = a.kinds.size + 1 := by rw [hb, Array.size_push]
  constructor
  case child_lt =>
    intro id c hc
    rcases push_cases hb id with h | rfl | h
    · rw [hab.kind_eq id h] at hc
      exact hs.child_lt id c hc
    · rw [hnew] at hc
      exact hlt c hc
    · rw [h] at hc
      cases hc
  case shaped =>
    intro id
    rcases push_cases hb id with h | rfl | h
    · rw [hab.kind_eq id h]
      exact wellShaped_extends (hs.shaped id) hs hab fun c hc =>
        Nat.lt_trans (hs.child_lt id c hc) h
    · rw [hnew]
      exact wellShaped_extends hk hs hab hlt
    · rw [h]
      trivial
  case nodup =>
    rw [hb, Array.toList_push, List.flatMap_append, List.flatMap_singleton, List.append_assoc]
    have hperm : (a.kinds.size :: (a.kinds.toList.flatMap NodeKind.children ++
        (k.children ++ rest))).Perm (a.kinds.toList.flatMap NodeKind.children ++
        (k.children ++ a.kinds.size :: rest)) := by
      rw [← List.append_assoc, ← List.append_assoc]
      exact List.perm_middle.symm
    exact hperm.nodup (List.nodup_cons.mpr ⟨hs.next_not_mem, hs.nodup⟩)
  case pending_lt =>
    intro id hid
    rw [hsize]
    rcases List.mem_cons.mp hid with rfl | hid
    · exact Nat.lt_succ_self _
    · exact Nat.lt_succ_of_lt (hs.pending_lt id (List.mem_append_right _ hid))

end Arena

end PatternAutomata
