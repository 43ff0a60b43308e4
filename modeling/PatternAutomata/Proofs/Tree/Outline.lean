import PatternAutomata.Proofs.Tree.Copying
import Mathlib.Data.Set.Defs

/-!
# Outlines

The outline of a node is what stands from there on down: kinds, in order, with the members of the
classes, but without the numbers of nodes. Adding nodes changes no outline, and a copy has the outline
of its original.
-/

namespace PatternAutomata

/-- What stands below a node. -/
inductive Outline where
  | charClass (members : Set Nat)
  | backReference (number : Nat)
  | assertion (a : Assertion)
  | group (role : GroupRole) (innerStart innerEnd : Nat) (alternatives : List Outline)
  | look (direction : Direction) (negated : Bool) (body : Outline)
  | sequence (terms : List Outline)
  | matchFound

/-- The outline of a node of the kind, if those below have the outlines that `below` tells. -/
def NodeKind.outline (below : NodeId → Outline) : NodeKind → Outline
  | .charClass set => .charClass {c | c ∈ set}
  | .backReference n => .backReference n
  | .assertion a => .assertion a
  | .group g => .group g.role g.innerStart g.innerEnd (g.alternatives.map below)
  | .look l => .look l.direction l.negated (below l.body)
  | .sequence terms => .sequence (terms.map below)
  | .matchFound => .matchFound

/-- The outline of the node `id`. Children have smaller numbers, so any `fuel` above `id` will do. -/
def outlineFrom (kind : NodeId → NodeKind) : Nat → NodeId → Outline
  | 0, _ => .matchFound
  | fuel + 1, id => (kind id).outline (outlineFrom kind fuel)

/-- The outline of the whole pattern. -/
def Tree.outline (t : Tree) : Outline := outlineFrom t.kind t.size t.root

theorem NodeKind.outline_congr {below below' : NodeId → Outline} {k : NodeKind}
    (h : ∀ c ∈ k.children, below c = below' c) : k.outline below = k.outline below' := by
  cases k with
  | group g => exact congrArg _ (List.map_congr_left h)
  | look l => exact congrArg _ (h l.body (List.mem_cons_self ..))
  | sequence terms => exact congrArg _ (List.map_congr_left h)
  | _ => rfl

/-! ## Nodes in order -/

namespace Arena

variable {a b c : Arena} {id : NodeId}

/-- Children have smaller numbers than their parents. -/
def Ordered (a : Arena) : Prop := ∀ id, ∀ c ∈ (a.kind id).children, c < id

theorem outlineFrom_eq (ha : a.Ordered) {m n : Nat} (hm : id < m) (hn : id < n) :
    outlineFrom a.kind m id = outlineFrom a.kind n id := by
  induction id using Nat.strongRecOn generalizing m n with
  | ind id ih =>
    cases m with
    | zero => exact absurd hm (Nat.not_lt_zero _)
    | succ m =>
      cases n with
      | zero => exact absurd hn (Nat.not_lt_zero _)
      | succ n =>
        refine NodeKind.outline_congr fun c hc => ?_
        have hlt := ha id c hc
        exact ih c hlt (Nat.lt_of_lt_of_le hlt (Nat.le_of_lt_succ hm))
          (Nat.lt_of_lt_of_le hlt (Nat.le_of_lt_succ hn))

/-- The outline of a node of the arena. -/
def outline (a : Arena) (id : NodeId) : Outline := outlineFrom a.kind (id + 1) id

theorem outline_eq (ha : a.Ordered) (id : NodeId) :
    a.outline id = (a.kind id).outline a.outline :=
  NodeKind.outline_congr fun c hc => outlineFrom_eq ha (ha id c hc) (Nat.lt_succ_self c)

/-- Adding nodes changes no outline. -/
theorem outline_extends (ha : a.Ordered) (hab : a.Extends b) (hid : id < a.kinds.size) :
    b.outline id = a.outline id := by
  have hfrom : ∀ n id, id < a.kinds.size → outlineFrom b.kind n id = outlineFrom a.kind n id := by
    intro n
    induction n with
    | zero => exact fun _ _ => rfl
    | succ n ih =>
      intro id hid
      rw [outlineFrom, outlineFrom, hab.kind_eq id hid]
      exact NodeKind.outline_congr fun c hc => ih c (Nat.lt_trans (ha id c hc) hid)
  exact hfrom (id + 1) id hid

theorem map_outline_extends (ha : a.Ordered) (hab : a.Extends b) {ids : List NodeId}
    (hids : ∀ c ∈ ids, c < a.kinds.size) : ids.map b.outline = ids.map a.outline :=
  List.map_congr_left fun c hc => outline_extends ha hab (hids c hc)

end Arena

/-! ## Growing -/

namespace Grow

variable {α β ι : Type} {a b : Arena}

/-- If the computation succeeds in `a`, it only adds nodes, in order, and `P` holds of what it returns
and leaves. -/
def Ensures (g : Grow α) (a : Arena) (P : α → Arena → Prop) : Prop :=
  ∀ v b, g.run a = .ok (v, b) → a.Extends b ∧ b.Ordered ∧ P v b

theorem ensures_pure {v : α} {P : α → Arena → Prop} (ha : a.Ordered) (h : P v a) :
    Ensures (pure v) a P := by
  intro w b hw
  obtain ⟨rfl, rfl⟩ := pure_eq_ok.mp hw
  exact ⟨.refl a, ha, h⟩

theorem ensures_bind {g : Grow α} {f : α → Grow β} {P : α → Arena → Prop} {Q : β → Arena → Prop}
    (hg : Ensures g a P)
    (hf : ∀ v b, a.Extends b → b.Ordered → P v b → Ensures (f v) b Q) : Ensures (g >>= f) a Q := by
  intro w c hw
  obtain ⟨v, b, hv, hw⟩ := bind_eq_ok.mp hw
  obtain ⟨hab, hb, hP⟩ := hg v b hv
  obtain ⟨hbc, hc, hQ⟩ := hf v b hab hb hP w c hw
  exact ⟨hab.trans hbc, hc, hQ⟩

/-- A node with the outline `o` has been made. -/
def Drawn (o : Outline) (id : NodeId) (b : Arena) : Prop := id < b.kinds.size ∧ b.outline id = o

/-- Nodes with the outlines `os` have been made. -/
def AllDrawn (os : List Outline) (ids : List NodeId) (b : Arena) : Prop :=
  (∀ c ∈ ids, c < b.kinds.size) ∧ ids.map b.outline = os

theorem Drawn.extends {o : Outline} {id : NodeId} (h : Drawn o id a) (ha : a.Ordered)
    (hab : a.Extends b) : Drawn o id b :=
  ⟨Nat.lt_of_lt_of_le h.1 hab.size_le, (Arena.outline_extends ha hab h.1).trans h.2⟩

theorem AllDrawn.extends {os : List Outline} {ids : List NodeId} (h : AllDrawn os ids a)
    (ha : a.Ordered) (hab : a.Extends b) : AllDrawn os ids b :=
  ⟨fun c hc => Nat.lt_of_lt_of_le (h.1 c hc) hab.size_le,
    (Arena.map_outline_extends ha hab h.1).trans h.2⟩

theorem AllDrawn.append {os os' : List Outline} {ids ids' : List NodeId} (h : AllDrawn os ids a)
    (h' : AllDrawn os' ids' a) : AllDrawn (os ++ os') (ids ++ ids') a := by
  refine ⟨fun c hc => ?_, by rw [List.map_append, h.2, h'.2]⟩
  rcases List.mem_append.mp hc with hc | hc
  · exact h.1 c hc
  · exact h'.1 c hc

theorem allDrawn_nil : AllDrawn [] [] a := ⟨nofun, rfl⟩

theorem allDrawn_cons {o : Outline} {os : List Outline} {id : NodeId} {ids : List NodeId} :
    AllDrawn (o :: os) (id :: ids) a ↔ Drawn o id a ∧ AllDrawn os ids a := by
  simp only [AllDrawn, Drawn, List.mem_cons, forall_eq_or_imp, List.map_cons, List.cons.injEq]
  tauto

theorem ensures_add {k : NodeKind} (ha : a.Ordered) (hk : ∀ c ∈ k.children, c < a.kinds.size) :
    Ensures (add k) a (Drawn (k.outline a.outline)) := by
  intro id b h
  obtain ⟨rfl, hb⟩ := add_eq_ok h
  obtain ⟨hab, hnew⟩ := Arena.extends_push hb
  have hsize : b.kinds.size = a.kinds.size + 1 := by rw [hb, Array.size_push]
  have hordered : b.Ordered := by
    intro id c hc
    rcases Nat.lt_trichotomy id a.kinds.size with hid | rfl | hid
    · rw [hab.kind_eq id hid] at hc
      exact ha id c hc
    · rw [hnew] at hc
      exact hk c hc
    · rw [Arena.kind, Array.getD_eq_getD_getElem?, Array.getElem?_eq_none_iff.mpr (hsize ▸ hid)] at hc
      cases hc
  refine ⟨hab, hordered, by rw [hsize]; exact Nat.lt_succ_self _, ?_⟩
  rw [Arena.outline_eq hordered, hnew]
  exact NodeKind.outline_congr fun c hc => Arena.outline_extends ha hab (hk c hc)

theorem ensures_sequence {terms : List NodeId} {os : List Outline} (ha : a.Ordered)
    (h : AllDrawn os terms a) : Ensures (sequence terms) a (Drawn (.sequence os)) := by
  have hadd := ensures_add (k := .sequence terms) ha h.1
  rwa [NodeKind.outline, h.2] at hadd

theorem ensures_group {g : Group} {os : List Outline} (ha : a.Ordered)
    (h : AllDrawn os g.alternatives a) :
    Ensures (add (.group g)) a (Drawn (.group g.role g.innerStart g.innerEnd os)) := by
  have hadd := ensures_add (k := .group g) ha h.1
  rwa [NodeKind.outline, h.2] at hadd

theorem ensures_look {direction : Direction} {negated : Bool} {body : NodeId} {o : Outline}
    (ha : a.Ordered) (h : Drawn o body a) :
    Ensures (look direction negated body) a (Drawn (.look direction negated o)) := by
  refine ensures_bind (ensures_add (k := .matchFound) ha (by simp [NodeKind.children]))
    fun m b hab hb hm => ?_
  have hbody := h.extends ha hab
  have hadd := ensures_add (k := .look ⟨direction, negated, body, m⟩) hb fun c hc => by
    simp only [NodeKind.children, List.mem_cons, List.not_mem_nil, or_false] at hc
    rcases hc with rfl | rfl
    · exact hbody.1
    · exact hm.1
  rwa [NodeKind.outline, hbody.2] at hadd

theorem ensures_mapM {f : NodeId → Grow NodeId} {ids : List NodeId} (ha : a.Ordered)
    (hids : ∀ c ∈ ids, c < a.kinds.size)
    (hf : ∀ c ∈ ids, ∀ a : Arena, a.Ordered → c < a.kinds.size →
      Ensures (f c) a (Drawn (a.outline c))) :
    Ensures (ids.mapM f) a (AllDrawn (ids.map a.outline)) := by
  induction ids generalizing a with
  | nil => exact ensures_pure ha allDrawn_nil
  | cons c ids ih =>
    rw [List.mapM_cons]
    refine ensures_bind (hf c (by simp) a ha (hids c (by simp))) fun c' b hab hb hc' => ?_
    refine ensures_bind (ih hb (fun d hd => Nat.lt_of_lt_of_le (hids d (by simp [hd])) hab.size_le)
      fun d hd => hf d (by simp [hd])) fun ids' b' hbb' hb' hids' => ensures_pure hb' ?_
    rw [List.map_cons, allDrawn_cons]
    rw [Arena.map_outline_extends ha hab fun d hd => hids d (by simp [hd])] at hids'
    exact ⟨hc'.extends hb hbb', hids'⟩

/-- A copy has the outline of its original. -/
theorem ensures_copyWithin (fuel : Nat) {id : NodeId} (hfuel : id < fuel) (ha : a.Ordered)
    (hid : id < a.kinds.size) : Ensures (copyWithin fuel id) a (Drawn (a.outline id)) := by
  induction fuel generalizing a id with
  | zero => exact absurd hfuel (Nat.not_lt_zero _)
  | succ fuel ih =>
    have hchild : ∀ c ∈ (a.kind id).children, c < fuel ∧ c < a.kinds.size := fun c hc =>
      ⟨Nat.lt_of_lt_of_le (ha id c hc) (Nat.le_of_lt_succ hfuel), Nat.lt_trans (ha id c hc) hid⟩
    have hcopies : ∀ ids : List NodeId, (∀ c ∈ ids, c < fuel ∧ c < a.kinds.size) →
        Ensures (ids.mapM (copyWithin fuel)) a (AllDrawn (ids.map a.outline)) := fun ids hids =>
      ensures_mapM ha (fun c hc => (hids c hc).2) fun c hc a ha hc' => ih (hids c hc).1 ha hc'
    have houtline := Arena.outline_eq ha id
    intro id' b h
    unfold copyWithin at h
    rw [get_bind, show a.kinds.getD id .matchFound = a.kind id from rfl] at h
    rw [houtline]
    cases hk : a.kind id with
    | group g =>
      rw [hk] at h hchild
      exact ensures_bind (hcopies _ hchild) (fun alternatives b _ hb hall =>
        ensures_group (g := { g with alternatives }) hb hall) id' b h
    | sequence terms =>
      rw [hk] at h hchild
      exact ensures_bind (hcopies _ hchild) (fun terms' b _ hb hall => ensures_sequence hb hall) id' b h
    | look l =>
      rw [hk] at h hchild
      obtain ⟨hlt, hbody⟩ := hchild l.body (List.mem_cons_self ..)
      exact ensures_bind (ih hlt ha hbody) (fun body b _ hb hdrawn => ensures_look hb hdrawn) id' b h
    | _ =>
      rw [hk] at h
      exact ensures_add ha (by simp [NodeKind.children]) id' b h

theorem ensures_copy {id : NodeId} (ha : a.Ordered) (hid : id < a.kinds.size) :
    Ensures (copy id) a (Drawn (a.outline id)) := by
  intro id' b h
  unfold copy at h
  rw [get_bind] at h
  exact ensures_copyWithin a.kinds.size hid ha hid id' b h

end Grow

/-- The node that ends a match is not below the root. -/
theorem Arena.outline_of_finish {a : Arena} {root : NodeId} {names : Array (Option String)}
    {o : Outline} {t : Tree} (ha : a.Ordered) (hroot : Grow.Drawn o root a)
    (h : a.finish root names = .ok t) : t.outline = o ∧ t.groupNames = names := by
  obtain ⟨⟨m, b⟩, hadd, h⟩ := bind_eq_ok.mp h
  obtain ⟨hext, hb, -⟩ := Grow.ensures_add ha (by simp [NodeKind.children]) m b hadd
  cases h
  obtain ⟨hlt, ho⟩ := hroot.extends ha hext
  exact ⟨(outlineFrom_eq hb hlt (Nat.lt_succ_self root)).trans ho, rfl⟩

end PatternAutomata
