import PatternAutomata.Proofs.Tree.Copying
import PatternAutomata.Tree.CopyStack
import Mathlib.Data.List.Perm.Subperm

/-!
# Copies in post-order

The nodes of a subtree are copied in post-order. The copies stand together at the end of the arena, and
each is like its original, with children that are the copies of the children. It does not matter whether
a copy is made by recursion or with a stack of visits: the recursion goes through the subtrees of the
children one after the other, and the stack does the same before it comes back to the node.
-/

namespace PatternAutomata

/-! ## Post-order -/

/-- The node that ends a look-around, which is made just before it. -/
def NodeKind.ends : NodeKind → List NodeId
  | look l => [l.matchFound]
  | _ => []

/-- The subtrees at the nodes `cs` consist of the nodes `order`, each after those below it, and the end
of a look-around just before it. -/
inductive PostOrder (kind : NodeId → NodeKind) : List NodeId → List NodeId → Prop
  | nil : PostOrder kind [] []
  | cons {c : NodeId} {cs below after : List NodeId}
    (ends : ∀ m ∈ (kind c).ends, kind m = .matchFound)
    (hbelow : PostOrder kind (kind c).copied below) (hafter : PostOrder kind cs after) :
    PostOrder kind (c :: cs) (below ++ (kind c).ends ++ [c] ++ after)

namespace NodeKind

/-- The kind with other children. -/
def mapChildren (f : NodeId → NodeId) : NodeKind → NodeKind
  | group g => group { g with alternatives := g.alternatives.map f }
  | look l => look { l with body := f l.body, matchFound := f l.matchFound }
  | sequence terms => sequence (terms.map f)
  | kind => kind

variable {f f' : NodeId → NodeId} {k : NodeKind}

theorem children_eq (k : NodeKind) : k.children = k.copied ++ k.ends := by
  cases k with
  | group g => exact (List.append_nil _).symm
  | sequence terms => exact (List.append_nil _).symm
  | _ => rfl

theorem mapChildren_congr (h : ∀ c ∈ k.children, f c = f' c) : k.mapChildren f = k.mapChildren f' := by
  cases k with
  | group g =>
    have halternatives : g.alternatives.map f = g.alternatives.map f' := List.map_congr_left h
    simp only [mapChildren, halternatives]
  | look l =>
    have hbody : f l.body = f' l.body := h l.body (.head _)
    have hend : f l.matchFound = f' l.matchFound := h l.matchFound (.tail _ (.head _))
    simp only [mapChildren, hbody, hend]
  | sequence terms => exact congrArg sequence (List.map_congr_left h)
  | _ => rfl

@[simp] theorem copied_mapChildren : (k.mapChildren f).copied = k.copied.map f := by
  cases k <;> rfl

@[simp] theorem ends_mapChildren : (k.mapChildren f).ends = k.ends.map f := by
  cases k <;> rfl

end NodeKind

namespace PostOrder

variable {kind : NodeId → NodeKind} {cs order : List NodeId}

theorem mem_of_root (h : PostOrder kind cs order) : ∀ c ∈ cs, c ∈ order := by
  induction h with
  | nil => exact fun _ hc => hc
  | cons _ _ _ _ ih =>
    intro c hc
    rcases List.mem_cons.mp hc with rfl | hc
    · simp
    · simp [ih c hc]

/-- What stands below a node of the subtrees belongs to them. -/
theorem children_mem (h : PostOrder kind cs order) :
    ∀ i ∈ order, ∀ c ∈ (kind i).children, c ∈ order := by
  induction h with
  | nil => nofun
  | @cons i cs below after hends hbelow hafter ihbelow ihafter =>
    intro j hj c hc
    simp only [List.mem_append, List.mem_singleton] at hj ⊢
    rcases hj with ((hj | hj) | rfl) | hj
    · exact .inl (.inl (.inl (ihbelow j hj c hc)))
    · rw [hends j hj] at hc
      cases hc
    · rw [NodeKind.children_eq] at hc
      exact .inl (.inl ((List.mem_append.mp hc).imp_left (hbelow.mem_of_root c)))
    · exact .inr (ihafter j hj c hc)

/-- Nodes that are like those of the subtrees, with children that correspond to theirs, stand in the same
order. -/
theorem map {kind' : NodeId → NodeKind} {f : NodeId → NodeId} (h : PostOrder kind cs order)
    (hlike : ∀ i ∈ order, kind' (f i) = (kind i).mapChildren f) :
    PostOrder kind' (cs.map f) (order.map f) := by
  induction h with
  | nil => exact .nil
  | @cons c cs below after hends hbelow hafter ihbelow ihafter =>
    have hc : kind' (f c) = (kind c).mapChildren f := hlike c (by simp)
    have hbelow' := ihbelow fun i hi => hlike i (by simp [hi])
    have hafter' := ihafter fun i hi => hlike i (by simp [hi])
    have hends' : ∀ m ∈ (kind' (f c)).ends, kind' m = .matchFound := by
      rw [hc, NodeKind.ends_mapChildren, List.forall_mem_map]
      intro m hm
      rw [hlike m (by simp [hm]), hends m hm]
      rfl
    have hall := cons (c := f c) hends' (by rwa [hc, NodeKind.copied_mapChildren]) hafter'
    simpa [hc] using hall

end PostOrder

/-! ## Numbering anew -/

/-- Copies of the nodes `order` for an arena of `base` nodes, numbered by their places. -/
def renumbered (kind : NodeId → NodeKind) (base : Nat) (order : List NodeId) : List NodeKind :=
  order.map fun i => (kind i).mapChildren fun c => base + order.idxOf c

section Renumbered

variable {kind : NodeId → NodeKind} {base : Nat} {l l' : List NodeId} {c : NodeId}

@[simp] theorem length_renumbered : (renumbered kind base l).length = l.length := List.length_map ..

/-- Subtrees that share no node are copied one after the other. -/
theorem renumbered_append (hl : ∀ i ∈ l, ∀ c ∈ (kind i).children, c ∈ l)
    (hl' : ∀ i ∈ l', ∀ c ∈ (kind i).children, c ∈ l') (hnodup : (l ++ l').Nodup) :
    renumbered kind base (l ++ l') =
      renumbered kind base l ++ renumbered kind (base + l.length) l' := by
  unfold renumbered
  rw [List.map_append]
  congr 1
  · refine List.map_congr_left fun i hi => NodeKind.mapChildren_congr fun c hc => ?_
    rw [List.idxOf_append_of_mem (hl i hi c hc)]
  · refine List.map_congr_left fun i hi => NodeKind.mapChildren_congr fun c hc => ?_
    have hnot : c ∉ l := fun hmem => (List.nodup_append.mp hnodup).2.2 c hmem c (hl' i hi c hc) rfl
    rw [List.idxOf_append_of_notMem hnot, Nat.add_assoc]

/-- A node is copied after those below it and its end. -/
theorem renumbered_concat (hl : ∀ i ∈ l, ∀ c ∈ (kind i).children, c ∈ l)
    (hends : ∀ m ∈ (kind c).ends, kind m = .matchFound) (hcopied : ∀ i ∈ (kind c).copied, i ∈ l) :
    renumbered kind base (l ++ (kind c).ends ++ [c]) = renumbered kind base l ++
      ((kind c).ends.map (fun _ => .matchFound) ++
        [(kind c).mapChildren fun i => base + (l ++ (kind c).ends).idxOf i]) := by
  unfold renumbered
  rw [List.map_append, List.map_append, List.append_assoc]
  congr 1
  · refine List.map_congr_left fun i hi => NodeKind.mapChildren_congr fun c' hc' => ?_
    rw [List.append_assoc, List.idxOf_append_of_mem (hl i hi c' hc')]
  · congr 1
    · refine List.map_congr_left fun m hm => ?_
      rw [hends m hm]
      rfl
    · refine congrArg (fun k => [k]) (NodeKind.mapChildren_congr fun i hi => ?_)
      have hmem : i ∈ l ++ (kind c).ends := by
        rw [NodeKind.children_eq] at hi
        exact List.mem_append.mpr ((List.mem_append.mp hi).imp_left (hcopied i))
      rw [List.idxOf_append_of_mem hmem]

end Renumbered

/-! ## Adding nodes -/

namespace Arena

/-- There is room for `n` more nodes. -/
def HasRoom (a : Arena) (n : Nat) : Prop := n = 0 ∨ a.kinds.size + n ≤ a.limit

instance (a : Arena) (n : Nat) : Decidable (a.HasRoom n) := inferInstanceAs (Decidable (_ ∨ _))

def append (a : Arena) (ks : List NodeKind) : Arena := { a with kinds := a.kinds ++ ks.toArray }

variable {a : Arena} {ks ks' : List NodeKind} {id : NodeId}

@[simp] theorem size_append : (a.append ks).kinds.size = a.kinds.size + ks.length := by
  simp [append]

theorem append_append : (a.append ks).append ks' = a.append (ks ++ ks') := by
  simp [append, Array.append_assoc]

theorem append_nil : a.append [] = a := by
  simp [append]

theorem hasRoom_append_iff {m n : Nat} (h : ks.length = m) :
    a.HasRoom (m + n) ↔ a.HasRoom m ∧ (a.append ks).HasRoom n := by
  have hlimit : (a.append ks).limit = a.limit := rfl
  unfold HasRoom
  rw [size_append, hlimit]
  omega

theorem kind_append_left (h : id < a.kinds.size) : (a.append ks).kind id = a.kind id := by
  simp only [kind, append, Array.getD_eq_getD_getElem?]
  rw [Array.getElem?_append_left h]

theorem kind_append_right (i : Nat) : (a.append ks).kind (a.kinds.size + i) = ks.getD i .matchFound := by
  simp only [kind, append, Array.getD_eq_getD_getElem?]
  rw [Array.getElem?_append_right (Nat.le_add_right ..), Nat.add_sub_cancel_left,
    List.getElem?_toArray, List.getD_eq_getElem?_getD]

end Arena

namespace Grow

variable {α β : Type} {a : Arena} {g h : Grow α} {f : α → Grow β} {v : α} {w : β}
  {ks ks' : List NodeKind}

/-- The computation adds nodes of the kinds `ks` and goes on as `h`, or fails because there is no room
for them. -/
def GoesOn (g : Grow α) (a : Arena) (ks : List NodeKind) (h : Grow α) : Prop :=
  g.run a = if a.HasRoom ks.length then h.run (a.append ks) else .error (Stage.parse.exceeded .treeSize)

theorem GoesOn.of_eq (heq : g.run a = h.run a) : GoesOn g a [] h := by
  unfold GoesOn
  rw [if_pos (.inl rfl), Arena.append_nil, heq]

theorem GoesOn.step {k : Grow α} (heq : g.run a = h.run a) (hh : GoesOn h a ks k) : GoesOn g a ks k :=
  heq.trans hh

theorem GoesOn.trans {k : Grow α} (hg : GoesOn g a ks h) (hh : GoesOn h (a.append ks) ks' k) :
    GoesOn g a (ks ++ ks') k := by
  unfold GoesOn at hg hh ⊢
  rw [hg, hh, List.length_append, if_congr (Arena.hasRoom_append_iff rfl) rfl rfl,
    Arena.append_append, ite_and]

/-- The computation adds nodes of the kinds `ks` and returns `v`, or fails because there is no room for
them. -/
def Makes (g : Grow α) (a : Arena) (v : α) (ks : List NodeKind) : Prop := GoesOn g a ks (pure v)

theorem Makes.run (hg : Makes g a v ks) : g.run a =
    if a.HasRoom ks.length then .ok (v, a.append ks) else .error (Stage.parse.exceeded .treeSize) := hg

theorem makes_pure (v : α) (a : Arena) : Makes (pure v) a v [] := .of_eq rfl

theorem makes_add (kind : NodeKind) (a : Arena) : Makes (add kind) a a.kinds.size [kind] := by
  unfold Makes GoesOn
  have hroom : a.HasRoom [kind].length ↔ a.kinds.size < a.limit := or_iff_right Nat.one_ne_zero
  rw [if_congr hroom rfl rfl]
  simp only [add, StateT.run, Arena.append, Array.push_eq_append]
  rfl

theorem Makes.goesOn (hg : Makes g a v ks) : GoesOn (g >>= f) a ks (f v) := by
  unfold Makes GoesOn at hg
  unfold GoesOn
  rw [StateT.run_bind, hg]
  by_cases hroom : a.HasRoom ks.length
  · rw [if_pos hroom, if_pos hroom]
    rfl
  · rw [if_neg hroom, if_neg hroom]
    rfl

theorem Makes.bind (hg : Makes g a v ks) (hf : Makes (f v) (a.append ks) w ks') :
    Makes (g >>= f) a w (ks ++ ks') := hg.goesOn.trans hf

theorem Makes.returns {r : α → β} (hg : Makes g a v ks) : Makes (do return r (← g)) a (r v) ks :=
  hg.goesOn

/-- A copy of a node takes the next number, after that of its end. -/
theorem makes_addCopy {k : NodeKind} {f : NodeId → NodeId} (hends : ∀ m ∈ k.ends, f m = a.kinds.size) :
    Makes (addCopy k (k.copied.map f)) a (a.kinds.size + k.ends.length)
      (k.ends.map (fun _ => .matchFound) ++ [k.mapChildren f]) := by
  cases k with
  | look l =>
    have hend : f l.matchFound = a.kinds.size := hends l.matchFound (.head _)
    refine (makes_add .matchFound a).bind ?_
    have hadd := makes_add (.look { l with body := f l.body, matchFound := a.kinds.size })
      (a.append [.matchFound])
    rw [Arena.size_append] at hadd
    rw [NodeKind.mapChildren, hend]
    exact hadd
  | _ => exact makes_add _ a

end Grow

/-! ## Copying -/

section Copying

variable {kind : NodeId → NodeKind} {c : NodeId} {cs order below after : List NodeId} {a : Arena}

/-- The nodes are in the arena, as they were when copying began. -/
def Arena.Holds (a : Arena) (kind : NodeId → NodeKind) (order : List NodeId) : Prop :=
  ∀ i ∈ order, i < a.kinds.size ∧ a.kind i = kind i

theorem Arena.Holds.append (h : a.Holds kind order) (ks : List NodeKind) :
    (a.append ks).Holds kind order := fun i hi =>
  ⟨Nat.lt_of_lt_of_le (h i hi).1 (by simp), (Arena.kind_append_left (h i hi).1).trans (h i hi).2⟩

/-- The copies of the nodes `order`, which come next in the arena. -/
def Arena.copies (a : Arena) (kind : NodeId → NodeKind) (order : List NodeId) : List NodeKind :=
  renumbered kind a.kinds.size order

/-- The number of the copy of a node. -/
def Arena.copyOf (a : Arena) (order : List NodeId) (c : NodeId) : NodeId :=
  a.kinds.size + order.idxOf c

/-- What copying the first subtree and then the others comes to. -/
structure Splits (kind : NodeId → NodeKind) (a : Arena) (c : NodeId) (cs below after : List NodeId) :
    Prop where
  /-- The copy of the root of the first subtree, with its end. -/
  root : Grow.Makes (Grow.addCopy (kind c) ((kind c).copied.map (a.copyOf below)))
    (a.append (a.copies kind below)) (a.copyOf (below ++ (kind c).ends ++ [c] ++ after) c)
    ((kind c).ends.map (fun _ => .matchFound) ++
      [(kind c).mapChildren (a.copyOf (below ++ (kind c).ends))])
  first : a.copies kind (below ++ (kind c).ends ++ [c]) = a.copies kind below ++
    ((kind c).ends.map (fun _ => .matchFound) ++
      [(kind c).mapChildren (a.copyOf (below ++ (kind c).ends))])
  rest : a.copies kind (below ++ (kind c).ends ++ [c] ++ after) =
    a.copies kind (below ++ (kind c).ends ++ [c]) ++
      (a.append (a.copies kind (below ++ (kind c).ends ++ [c]))).copies kind after
  roots : cs.map ((a.append (a.copies kind (below ++ (kind c).ends ++ [c]))).copyOf after) =
    cs.map (a.copyOf (below ++ (kind c).ends ++ [c] ++ after))

theorem splits (hends : ∀ m ∈ (kind c).ends, kind m = .matchFound)
    (hbelow : PostOrder kind (kind c).copied below) (hafter : PostOrder kind cs after)
    (hnodup : (below ++ (kind c).ends ++ [c] ++ after).Nodup) : Splits kind a c cs below after := by
  obtain ⟨hfirst, -, hdisjoint⟩ := List.nodup_append.mp hnodup
  obtain ⟨hwith, -, hc⟩ := List.nodup_append.mp hfirst
  have hmem : ∀ i ∈ (kind c).copied, i ∈ below := hbelow.mem_of_root
  have hsubtree : PostOrder kind [c] (below ++ (kind c).ends ++ [c]) := by
    have h := PostOrder.cons hends hbelow .nil
    rwa [List.append_nil] at h
  refine ⟨?_, renumbered_concat hbelow.children_mem hends hmem, ?_, ?_⟩
  · have hsame : (kind c).copied.map (a.copyOf below) =
        (kind c).copied.map (a.copyOf (below ++ (kind c).ends)) := by
      refine List.map_congr_left fun i hi => ?_
      rw [Arena.copyOf, Arena.copyOf, List.idxOf_append_of_mem (hmem i hi)]
    have hnot : c ∉ below ++ (kind c).ends := fun h => hc c h c (.head _) rfl
    have hplace : a.copyOf (below ++ (kind c).ends ++ [c] ++ after) c =
        (a.append (a.copies kind below)).kinds.size + (kind c).ends.length := by
      rw [Arena.copyOf, List.append_assoc, List.idxOf_append_of_notMem hnot, List.singleton_append,
        List.idxOf_cons_self, Arena.size_append, Arena.copies, length_renumbered, List.length_append]
      exact (Nat.add_assoc a.kinds.size below.length (kind c).ends.length).symm
    rw [hsame, hplace]
    refine Grow.makes_addCopy fun m hm => ?_
    have hnotBelow : m ∉ below := fun h => (List.nodup_append.mp hwith).2.2 m h m hm rfl
    have hfirstEnd : (kind c).ends.idxOf m = 0 := by
      cases hk : kind c with
      | look l =>
        rw [hk] at hm
        obtain rfl := List.mem_singleton.mp hm
        exact List.idxOf_cons_self
      | _ =>
        rw [hk] at hm
        cases hm
    rw [Arena.copyOf, List.idxOf_append_of_notMem hnotBelow, hfirstEnd, Arena.size_append, Arena.copies,
      length_renumbered]
    rfl
  · rw [Arena.copies, renumbered_append hsubtree.children_mem hafter.children_mem hnodup]
    simp only [Arena.copies, Arena.size_append, length_renumbered]
  · refine List.map_congr_left fun i hi => ?_
    have hnot : i ∉ below ++ (kind c).ends ++ [c] := fun h =>
      hdisjoint i h i (hafter.mem_of_root i hi) rfl
    rw [Arena.copyOf, Arena.copyOf, List.idxOf_append_of_notMem hnot, Arena.size_append, Arena.copies,
      length_renumbered, Nat.add_assoc]

namespace Grow

/-- A node is copied after the children that are. -/
theorem run_copyWithin_succ (fuel : Nat) (hk : a.kind c = kind c) : (copyWithin (fuel + 1) c).run a =
    ((kind c).copied.mapM (copyWithin fuel) >>= addCopy (kind c)).run a := by
  have hk : a.kinds.getD c .matchFound = kind c := hk
  rw [copyWithin, StateT.run_bind, StateT.run_get, pure_bind, hk]
  cases kind c with
  | look l => simp [NodeKind.copied, addCopy]
  | _ => rfl

/-- Copying by recursion makes the copies in post-order. -/
theorem makes_mapM_copyWithin (h : PostOrder kind cs order) (hnodup : order.Nodup) {fuel : Nat}
    (hfuel : order.length ≤ fuel) (ha : a.Holds kind order) :
    Makes (cs.mapM (copyWithin fuel)) a (cs.map (a.copyOf order)) (a.copies kind order) := by
  induction h generalizing fuel a with
  | nil => exact makes_pure [] a
  | @cons c cs below after hends hbelow hafter ihbelow ihafter =>
    obtain ⟨hroot, hfirst, hrest, hroots⟩ := splits (a := a) hends hbelow hafter hnodup
    simp only [List.length_append, List.length_singleton] at hfuel
    have hnodups := List.nodup_append.mp hnodup
    have hnodupBelow : below.Nodup := hnodups.1.sublist (by simp)
    obtain ⟨fuel, rfl⟩ := Nat.exists_eq_add_of_le' (show 1 ≤ fuel by omega)
    have hchildren := ihbelow hnodupBelow (show below.length ≤ fuel by omega)
      fun i hi => ha i (by simp [hi])
    have hcopy : Makes (copyWithin (fuel + 1) c) a
        (a.copyOf (below ++ (kind c).ends ++ [c] ++ after) c)
        (a.copies kind (below ++ (kind c).ends ++ [c])) := by
      unfold Makes GoesOn
      rw [run_copyWithin_succ fuel (ha c (by simp)).2, hfirst]
      exact hchildren.bind hroot
    have hothers := ihafter hnodups.2.1 (show after.length ≤ fuel + 1 by omega)
      (a := a.append (a.copies kind (below ++ (kind c).ends ++ [c])))
      (Arena.Holds.append (fun i hi => ha i (by simp [hi])) _)
    rw [List.mapM_cons, List.map_cons, hrest]
    refine hcopy.bind ?_
    rw [← hroots]
    exact hothers.returns

/-- The stack takes the copies of the children of a node for its copy. -/
theorem makes_visit_close {f : NodeId → NodeId} {copy : NodeId} {ks : List NodeKind}
    (visits : List Visit) (waiting : List NodeId) (last : NodeId) (hk : a.kind c = kind c)
    (hcopy : Makes (addCopy (kind c) ((kind c).copied.map f)) a copy ks) :
    Makes (visit (.close c) ⟨visits, waiting ++ (kind c).copied.map f, last⟩) a
      ⟨visits, waiting ++ [copy], copy⟩ ks := by
  have hk : a.kinds.getD c .matchFound = kind c := hk
  have hkeep : (waiting ++ (kind c).copied.map f).length - (kind c).copied.length = waiting.length := by
    rw [List.length_append, List.length_map, Nat.add_sub_cancel]
  unfold Makes GoesOn
  rw [visit, StateT.run_bind, StateT.run_get, pure_bind]
  simp only [hk, hkeep, List.drop_left, List.take_left]
  exact hcopy.returns

/-- The visits to the roots of subtrees make the copies in post-order, and leave those of the roots
waiting. -/
theorem goesOn_visitAll (h : PostOrder kind cs order) (hnodup : order.Nodup) (ha : a.Holds kind order) :
    ∃ steps ≤ 2 * order.length, ∀ (fuel : Nat) (visits : List Visit) (waiting : List NodeId)
      (last : NodeId),
      GoesOn (visitAll (fuel + steps) ⟨cs.map .open ++ visits, waiting, last⟩) a (a.copies kind order)
        (visitAll fuel ⟨visits, waiting ++ cs.map (a.copyOf order),
          (cs.map (a.copyOf order)).getLastD last⟩) := by
  induction h generalizing a with
  | nil =>
    refine ⟨0, Nat.le_refl _, fun fuel visits waiting last => .of_eq ?_⟩
    rw [List.map_nil, List.map_nil, List.append_nil]
    rfl
  | @cons c cs below after hends hbelow hafter ihbelow ihafter =>
    obtain ⟨hroot, hfirst, hrest, hroots⟩ := splits (a := a) hends hbelow hafter hnodup
    have hnodups := List.nodup_append.mp hnodup
    have hbelowHolds : a.Holds kind below := fun i hi => ha i (by simp [hi])
    obtain ⟨m, hm, hchildren⟩ := ihbelow (hnodups.1.sublist (by simp)) hbelowHolds
    obtain ⟨k, hk, hothers⟩ := ihafter hnodups.2.1
      (a := a.append (a.copies kind (below ++ (kind c).ends ++ [c])))
      (Arena.Holds.append (fun i hi => ha i (by simp [hi])) _)
    refine ⟨k + 1 + m + 1, ?_, fun fuel visits waiting last => ?_⟩
    · simp only [List.length_append, List.length_singleton]
      omega
    have hopen : (visitAll (fuel + k + 1 + m + 1)
          ⟨.open c :: (cs.map .open ++ visits), waiting, last⟩).run a =
        (visitAll (fuel + k + 1 + m) ⟨(kind c).copied.map .open ++ .close c :: (cs.map .open ++ visits),
          waiting, last⟩).run a := by
      rw [← (ha c (by simp)).2]
      rfl
    have hclose := (makes_visit_close (cs.map .open ++ visits) waiting
      (((kind c).copied.map (a.copyOf below)).getLastD last)
      ((ha.append (a.copies kind below)) c (by simp)).2 hroot).goesOn (f := visitAll (fuel + k))
    rw [List.map_cons, List.map_cons, List.cons_append, List.append_cons waiting, List.getLastD_cons,
      hrest, ← hroots, show fuel + (k + 1 + m + 1) = fuel + k + 1 + m + 1 by omega]
    refine GoesOn.trans (.step hopen ?_) (hothers fuel visits _ _)
    rw [hfirst]
    exact (hchildren ..).trans hclose

end Grow

end Copying

/-! ## The copy of a subtree -/

/-- The subtree at `id` is a tree of nodes of the arena, which are `order` in post-order. -/
structure Arena.IsTree (a : Arena) (id : NodeId) (order : List NodeId) : Prop where
  postOrder : PostOrder a.kind [id] order
  nodup : order.Nodup
  lt : ∀ i ∈ order, i < a.kinds.size

section Subtree

variable {a : Arena} {id : NodeId} {order : List NodeId}

theorem Arena.IsTree.holds (h : a.IsTree id order) : a.Holds a.kind order :=
  fun i hi => ⟨h.lt i hi, rfl⟩

theorem Arena.IsTree.length_le (h : a.IsTree id order) : order.length ≤ a.kinds.size := by
  have hsub : order ⊆ List.range a.kinds.size := fun i hi => List.mem_range.mpr (h.lt i hi)
  simpa using (h.nodup.subperm hsub).length_le

theorem Arena.IsTree.root_mem (h : a.IsTree id order) : id ∈ order :=
  h.postOrder.mem_of_root id (.head _)

/-- A subtree ends with its root. -/
theorem PostOrder.eq_concat {kind : NodeId → NodeKind} (h : PostOrder kind [id] order) :
    ∃ init, order = init ++ [id] := by
  cases h with
  | cons _ hbelow hafter =>
    cases hafter
    exact ⟨_, List.append_nil _⟩

theorem Arena.IsTree.copyOf_root (h : a.IsTree id order) :
    a.copyOf order id + 1 = a.kinds.size + order.length := by
  obtain ⟨init, rfl⟩ := h.postOrder.eq_concat
  have hnot : id ∉ init := fun hmem => (List.nodup_append.mp h.nodup).2.2 id hmem id (.head _) rfl
  rw [Arena.copyOf, List.idxOf_append_of_notMem hnot, List.idxOf_cons_self, List.length_append]
  rfl

theorem Arena.IsTree.map_copyOf (h : a.IsTree id order) :
    order.map (a.copyOf order) = List.range' a.kinds.size order.length := by
  refine List.ext_getElem (by simp) fun i hi hi' => ?_
  rw [List.getElem_map, Arena.copyOf, h.nodup.idxOf_getElem, List.getElem_range', Nat.one_mul]

theorem Arena.kind_copyOf {i : NodeId} (hi : i ∈ order) :
    (a.append (a.copies a.kind order)).kind (a.copyOf order i) =
      (a.kind i).mapChildren (a.copyOf order) := by
  have hlt : order.idxOf i < order.length := List.idxOf_lt_length_of_mem hi
  rw [Arena.copyOf, Arena.kind_append_right, Arena.copies, renumbered, List.getD_eq_getElem?_getD,
    List.getElem?_map, List.getElem?_eq_getElem hlt, List.getElem_idxOf]
  rfl

/-- The copies are a tree of the same form. -/
theorem Arena.IsTree.copied (h : a.IsTree id order) :
    (a.append (a.copies a.kind order)).IsTree (a.copyOf order id)
      (List.range' a.kinds.size order.length) where
  postOrder := h.map_copyOf ▸ h.postOrder.map fun _ hi => Arena.kind_copyOf hi
  nodup := List.nodup_range'
  lt i hi := by
    obtain ⟨hle, hlt⟩ := List.mem_range'_1.mp hi
    rwa [Arena.size_append, Arena.copies, length_renumbered]

namespace Grow

theorem makes_copy (h : a.IsTree id order) :
    Makes (copy id) a (a.copyOf order id) (a.copies a.kind order) := by
  have hmakes := makes_mapM_copyWithin h.postOrder h.nodup h.length_le h.holds
  have hfirst : (do return (← [id].mapM (copyWithin a.kinds.size)).headD id) =
      copyWithin a.kinds.size id := by simp
  have hcopy := hmakes.returns (r := fun copies => copies.headD id)
  rw [hfirst] at hcopy
  exact hcopy

theorem visitAll_nil (fuel : Nat) (waiting : List NodeId) (last : NodeId) :
    visitAll fuel ⟨[], waiting, last⟩ = pure last := by
  cases fuel <;> rfl

theorem makes_copyByStack (h : a.IsTree id order) :
    Makes (copyByStack id) a (a.copyOf order id) (a.copies a.kind order) := by
  obtain ⟨steps, hsteps, hvisits⟩ := goesOn_visitAll h.postOrder h.nodup h.holds
  have henough : steps ≤ 2 * a.kinds.size :=
    Nat.le_trans hsteps (Nat.mul_le_mul_left 2 h.length_le)
  have hmakes := hvisits (2 * a.kinds.size - steps) [] [] id
  rw [Nat.sub_add_cancel henough, visitAll_nil] at hmakes
  exact hmakes

/-- Both ways of copying a subtree do the same: the copies of its nodes come after all nodes there are,
in post-order, and are a tree like the original. Copying fails just if there is no room for them. -/
theorem copies_in_postOrder (h : a.IsTree id order) :
    (copyByStack id).run a = (copy id).run a ∧
      (a.limit < a.kinds.size + order.length →
        (copyByStack id).run a = .error (Stage.parse.exceeded .treeSize)) ∧
      (a.kinds.size + order.length ≤ a.limit → ∃ (id' : NodeId) (b : Arena),
        (copyByStack id).run a = .ok (id', b) ∧ id' + 1 = b.kinds.size ∧
        b.limit = a.limit ∧ b.kinds.size = a.kinds.size + order.length ∧
        (∀ i < a.kinds.size, b.kind i = a.kind i) ∧
        b.IsTree id' (List.range' a.kinds.size order.length) ∧
        order.map (a.copyOf order) = List.range' a.kinds.size order.length ∧
        a.copyOf order id = id' ∧
        (∀ i ∈ order, b.kind (a.copyOf order i) = (a.kind i).mapChildren (a.copyOf order)) ∧
        ∀ i ∈ order, i ∉ List.range' a.kinds.size order.length) := by
  have hpos : 0 < order.length := List.length_pos_of_mem h.root_mem
  have hlength : (a.copies a.kind order).length = order.length := length_renumbered
  have hroom : a.HasRoom order.length ↔ a.kinds.size + order.length ≤ a.limit := by
    unfold Arena.HasRoom
    omega
  have hsize : (a.append (a.copies a.kind order)).kinds.size = a.kinds.size + order.length := by
    rw [Arena.size_append, hlength]
  rw [(makes_copyByStack h).run, (makes_copy h).run, hlength]
  refine ⟨rfl, fun hlt => if_neg (mt hroom.mp (Nat.not_le_of_lt hlt)), fun hle => ?_⟩
  refine ⟨a.copyOf order id, a.append (a.copies a.kind order), if_pos (hroom.mpr hle),
    h.copyOf_root.trans hsize.symm, rfl, hsize, fun i => Arena.kind_append_left, h.copied,
    h.map_copyOf, rfl, fun i => Arena.kind_copyOf, fun i hi hmem => ?_⟩
  exact Nat.not_le_of_lt (h.lt i hi) (List.mem_range'_1.mp hmem).1

/-- The arena of a pattern like `(a(?!b)\1)*` with another node between those of the loop, and room for
`limit` nodes. -/
def loopWithLook (limit : Nat) : Arena where
  limit := limit
  kinds := #[.charClass (.single 0x62), .sequence [0], .group ⟨[1], .plain, 2, 2⟩, .matchFound,
    .look ⟨.ahead, true, 2, 3⟩, .assertion .atEnd, .backReference 1, .sequence [4, 6], .sequence [],
    .group ⟨[7, 8], .loop, 1, 2⟩]

/-- The loop has nine nodes: with room for eight the copy fails, and with room for nine its look-around
gets a body and an end of its own. -/
theorem copies_in_postOrder_loopWithLook :
    (∀ limit, (loopWithLook limit).IsTree 9 [0, 1, 2, 3, 4, 6, 7, 8, 9]) ∧
      (copyByStack 9).run (loopWithLook 18) = .error (Stage.parse.exceeded .treeSize) ∧
      ∃ b, (copyByStack 9).run (loopWithLook 19) = .ok (18, b) ∧ b.kinds.size = 19 ∧
        b.kind 9 = .group ⟨[7, 8], .loop, 1, 2⟩ ∧ b.kind 14 = .look ⟨.ahead, true, 12, 13⟩ ∧
        b.kind 15 = .backReference 1 ∧ b.kind 18 = .group ⟨[16, 17], .loop, 1, 2⟩ := by
  have htree (limit : Nat) : (loopWithLook limit).IsTree 9 [0, 1, 2, 3, 4, 6, 7, 8, 9] := by
    -- The kinds do not depend on the limit, and `decide` wants a closed term.
    let kind := (loopWithLook 0).kind
    have hclass : PostOrder kind [0] [0] := @PostOrder.cons _ 0 [] [] [] (by decide) .nil .nil
    have hbody : PostOrder kind [2] [0, 1, 2] := @PostOrder.cons _ 2 [] [0, 1] [] (by decide)
      (@PostOrder.cons _ 1 [] [0] [] (by decide) hclass .nil) .nil
    have hterms : PostOrder kind [4, 6] [0, 1, 2, 3, 4, 6] :=
      @PostOrder.cons _ 4 [6] [0, 1, 2] [6] (by decide) hbody
        (@PostOrder.cons _ 6 [] [] [] (by decide) .nil .nil)
    have halternatives : PostOrder kind [7, 8] [0, 1, 2, 3, 4, 6, 7, 8] :=
      @PostOrder.cons _ 7 [8] [0, 1, 2, 3, 4, 6] [8] (by decide) hterms
        (@PostOrder.cons _ 8 [] [] [] (by decide) .nil .nil)
    have hloop : PostOrder kind [9] [0, 1, 2, 3, 4, 6, 7, 8, 9] :=
      @PostOrder.cons _ 9 [] [0, 1, 2, 3, 4, 6, 7, 8] [] (by decide) halternatives .nil
    exact ⟨hloop, by decide, show ∀ i ∈ _, i < 10 by decide⟩
  obtain ⟨-, hfail, -⟩ := copies_in_postOrder (htree 18)
  obtain ⟨-, -, hcopy⟩ := copies_in_postOrder (htree 19)
  obtain ⟨id', b, hrun, hlast, -, hsize, hold, -, -, -, hlike, -⟩ := hcopy (by decide)
  obtain rfl : id' = 18 := Nat.succ.inj (hlast.trans hsize)
  exact ⟨htree, hfail (by decide), b, hrun, hsize, hold 9 (by decide), hlike 4 (by decide),
    hlike 6 (by decide), hlike 9 (by decide)⟩

end Grow

end Subtree

end PatternAutomata
