import PatternAutomata.Proofs.Tree.Growing
import Mathlib.Data.List.Nodup

/-!
# Places

Every node is put below at most one other, so the place that is recorded for it is the one where it
stands.
-/

namespace PatternAutomata

namespace Tree

/-- What is recorded of the nodes below `id`. -/
def placesBelow (kind : NodeKind) (id : NodeId) : List (NodeId × Place) :=
  match kind with
  | .sequence terms => terms.zipIdx.map fun (c, i) => (c, ⟨some id, i⟩)
  | kind => kind.children.map fun c => (c, ⟨some id, 0⟩)

def record (places : Array Place) (x : NodeId × Place) : Array Place :=
  places.setIfInBounds x.1 x.2

theorem placeChildren_eq (places : Array Place) (kind : NodeKind) (id : NodeId) :
    placeChildren places kind id = (placesBelow kind id).foldl record places := by
  unfold placeChildren placesBelow
  cases kind with
  | sequence terms => rw [List.foldl_map]; rfl
  | _ => rw [List.foldl_map]; rfl

theorem map_fst_placesBelow (kind : NodeKind) (id : NodeId) :
    (placesBelow kind id).map Prod.fst = kind.children := by
  unfold placesBelow
  cases kind with
  | sequence terms =>
    rw [List.map_map]
    exact List.zipIdx_map_fst ..
  | _ =>
    rw [List.map_map]
    exact List.map_id _

theorem parent_of_mem_placesBelow {kind : NodeKind} {id : NodeId} {x : NodeId × Place}
    (hx : x ∈ placesBelow kind id) : x.2.parent = some id := by
  unfold placesBelow at hx
  split at hx
  · obtain ⟨y, -, rfl⟩ := List.mem_map.mp hx
    rfl
  · obtain ⟨y, -, rfl⟩ := List.mem_map.mp hx
    rfl

theorem placesOf_eq (kinds : Array NodeKind) :
    placesOf kinds = (kinds.toList.zipIdx.flatMap fun (k, id) => placesBelow k id).foldl record
      (Array.replicate kinds.size {}) := by
  unfold placesOf
  rw [List.foldl_flatMap]
  congr 1
  funext places x
  exact placeChildren_eq ..

/-- What is recorded once stays. -/
theorem foldl_record (l : List (NodeId × Place)) (places : Array Place)
    (hnodup : (l.map Prod.fst).Nodup) (hlt : ∀ x ∈ l, x.1 < places.size) :
    (∀ x ∈ l, (l.foldl record places).getD x.1 {} = x.2) ∧
      ∀ id ∉ l.map Prod.fst, (l.foldl record places).getD id {} = places.getD id {} := by
  induction l generalizing places with
  | nil => exact ⟨by simp, fun _ _ => rfl⟩
  | cons y l ih =>
    rw [List.map_cons, List.nodup_cons] at hnodup
    obtain ⟨h1, h2⟩ := ih (record places y) hnodup.2 fun x hx => by
      rw [record, Array.size_setIfInBounds]
      exact hlt x (by simp [hx])
    rw [List.foldl_cons]
    refine ⟨fun x hx => ?_, fun id hid => ?_⟩
    · rcases List.mem_cons.mp hx with rfl | hx
      · rw [h2 _ hnodup.1, record, Array.getD_eq_getD_getElem?,
          Array.getElem?_setIfInBounds_self_of_lt (hlt _ (by simp))]
        rfl
      · exact h1 x hx
    · rw [List.map_cons, List.mem_cons, not_or] at hid
      rw [h2 id hid.2, record, Array.getD_eq_getD_getElem?, Array.getElem?_setIfInBounds_ne
        (Ne.symm hid.1), Array.getD_eq_getD_getElem?]

/-- Nodes that stand below others have the places recorded for them, and other nodes have none. -/
theorem placesOf_spec {kinds : Array NodeKind} (hlt : ∀ k ∈ kinds.toList, ∀ c ∈ k.children,
      c < kinds.size) (hnodup : (kinds.toList.flatMap NodeKind.children).Nodup) :
    (∀ id (hid : id < kinds.size), ∀ x ∈ placesBelow kinds[id] id,
      (placesOf kinds).getD x.1 {} = x.2) ∧
    ∀ id ∉ kinds.toList.flatMap NodeKind.children, (placesOf kinds).getD id {} = {} := by
  have hfst : (kinds.toList.zipIdx.flatMap fun (k, id) => placesBelow k id).map Prod.fst =
      kinds.toList.flatMap NodeKind.children := by
    rw [List.map_flatMap]
    simp only [map_fst_placesBelow]
    rw [← List.flatMap_map (f := Prod.fst) (g := NodeKind.children), List.zipIdx_map_fst]
  obtain ⟨h1, h2⟩ := foldl_record (kinds.toList.zipIdx.flatMap fun (k, id) => placesBelow k id)
    (Array.replicate kinds.size {}) (hfst ▸ hnodup) fun y hy => by
      obtain ⟨k, hk, hy⟩ := List.mem_flatMap.mp (hfst ▸ List.mem_map_of_mem hy)
      rw [Array.size_replicate]
      exact hlt k hk _ hy
  rw [← placesOf_eq, hfst] at h2
  rw [← placesOf_eq] at h1
  refine ⟨fun id hid x hx => h1 x (List.mem_flatMap.mpr ⟨(kinds[id], id), ?_, hx⟩), fun id hid => ?_⟩
  · rw [List.mem_zipIdx_iff_getElem?]
    simp [hid]
  · rw [h2 id hid, Array.getD_eq_getD_getElem?, Array.getElem?_replicate]
    split <;> rfl

end Tree

namespace Arena

variable {a : Arena} {pending : List NodeId} {c : NodeId}

theorem mem_flatMap_children :
    c ∈ a.kinds.toList.flatMap NodeKind.children ↔ ∃ id, c ∈ (a.kind id).children := by
  rw [List.mem_flatMap]
  constructor
  · rintro ⟨k, hk, hc⟩
    obtain ⟨i, hi, rfl⟩ := List.mem_iff_getElem.mp hk
    have hi' : i < a.kinds.size := by simpa using hi
    exact ⟨i, by simpa [kind, hi'] using hc⟩
  · rintro ⟨id, hc⟩
    rw [kind, Array.getD_eq_getD_getElem?] at hc
    cases hget : a.kinds[id]? with
    | none =>
      rw [hget] at hc
      cases hc
    | some k =>
      rw [hget] at hc
      exact ⟨k, (Array.mem_of_getElem? hget).val, hc⟩

theorem Sound.nodup_children (hs : a.Sound pending) (id : NodeId) : (a.kind id).children.Nodup := by
  rw [kind, Array.getD_eq_getD_getElem?]
  cases hget : a.kinds[id]? with
  | none => exact .nil
  | some k =>
    exact (List.nodup_flatMap.mp (List.nodup_append.mp hs.nodup).1).1 k
      (Array.mem_of_getElem? hget).val

/-- Whatever stands below a node has its place recorded, and whatever stands nowhere has none. -/
theorem Sound.places (hs : a.Sound pending) :
    (∀ id, ∀ x ∈ Tree.placesBelow (a.kind id) id, (Tree.placesOf a.kinds).getD x.1 {} = x.2) ∧
      ∀ c, (∀ id, c ∉ (a.kind id).children) → (Tree.placesOf a.kinds).getD c {} = {} := by
  have hkind : ∀ id (hid : id < a.kinds.size), a.kind id = a.kinds[id] := fun id hid => by
    simp [kind, hid]
  obtain ⟨hplaced, hunplaced⟩ := @Tree.placesOf_spec a.kinds (fun k hk c hc => by
      obtain ⟨i, hi, rfl⟩ := List.mem_iff_getElem.mp hk
      have hi' : i < a.kinds.size := by simpa using hi
      rw [Array.getElem_toList, ← hkind i hi'] at hc
      exact Nat.lt_trans (hs.child_lt i c hc) hi') (List.nodup_append.mp hs.nodup).1
  refine ⟨fun id x hx => ?_, fun c hc => hunplaced c fun hmem => ?_⟩
  · by_cases hid : id < a.kinds.size
    · exact hplaced id hid x (hkind id hid ▸ hx)
    · rw [kind, Array.getD_eq_getD_getElem?, Array.getElem?_eq_none_iff.mpr (Nat.le_of_not_lt hid)] at hx
      cases hx
  · obtain ⟨id, hid⟩ := mem_flatMap_children.mp hmem
    exact hc id hid

/-- A node that waits stands nowhere. -/
theorem Sound.not_mem_children (hs : a.Sound pending) (hc : c ∈ pending) (id : NodeId) :
    c ∉ (a.kind id).children := fun hmem =>
  (List.nodup_append.mp hs.nodup).2.2 c (mem_flatMap_children.mpr ⟨id, hmem⟩) c hc rfl

end Arena

/-- A finished tree is well-formed. -/
theorem wellFormed_of_sound {a : Arena} {root matchFound : NodeId} {rest : List NodeId}
    {groupNames : Array (Option String)} (hs : a.Sound (root :: matchFound :: rest))
    (hroot : ∃ g, a.kind root = .group g) (hfound : a.kind matchFound = .matchFound)
    (hwithin : ∀ c ∈ (a.kind root).children, ∃ hi, Within a.kind 1 hi c) :
    Tree.WellFormed ⟨a.kinds, Tree.placesOf a.kinds, root, matchFound, groupNames⟩ := by
  obtain ⟨hplaced, hunplaced⟩ := hs.places
  have hparent : ∀ id, ∀ c ∈ (a.kind id).children,
      ((Tree.placesOf a.kinds).getD c {}).parent = some id := by
    intro id c hc
    rw [← Tree.map_fst_placesBelow _ id] at hc
    obtain ⟨x, hx, rfl⟩ := List.mem_map.mp hc
    rw [hplaced id x hx]
    exact Tree.parent_of_mem_placesBelow hx
  have hwaits : ∀ c ∈ root :: matchFound :: rest,
      ((Tree.placesOf a.kinds).getD c {}).parent = none := fun c hc =>
    congrArg Place.parent (hunplaced c (hs.not_mem_children hc))
  refine ⟨hs.child_lt, hs.shaped, hs.nodup_children, hparent, fun id c hc => ?_,
    fun id k c hc => ?_, hs.pending_lt root (by simp), hroot, hwaits root (by simp),
    hwaits matchFound (by simp), hfound, hwithin⟩
  · obtain ⟨p, hp⟩ : ∃ p, c ∈ (a.kind p).children := by
      by_contra hmem
      have hnone := congrArg Place.parent (hunplaced c (not_exists.mp hmem))
      cases hnone.symm.trans hc
    obtain rfl : p = id := Option.some.inj ((hparent p c hp).symm.trans hc)
    exact hp
  · unfold Tree.terms at hc
    split at hc
    · rename_i terms hterms
      replace hterms : a.kind id = .sequence terms := hterms
      have hx : (c, (⟨some id, k⟩ : Place)) ∈ Tree.placesBelow (a.kind id) id := by
        rw [hterms]
        exact List.mem_map.mpr ⟨(c, k), List.mem_zipIdx_iff_getElem?.mpr hc, rfl⟩
      exact congrArg Place.index (hplaced id _ hx)
    · simp at hc

end PatternAutomata
