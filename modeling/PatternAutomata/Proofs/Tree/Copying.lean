import PatternAutomata.Proofs.Results
import PatternAutomata.Proofs.Tree.Growing

/-!
# Copies have the same shape

A copy of a subtree consists of new nodes only, and what it asks of the place where it is put is
what the original asks.
-/

namespace PatternAutomata

variable {a b c : Arena} {id id' : NodeId} {rest : List NodeId} {lo hi : Nat}

/-! ## Computations that grow -/

namespace Grow

variable {α β : Type}

theorem bind_eq_ok {x : Grow α} {f : α → Grow β} {v : β} :
    (x >>= f).run a = .ok (v, c) ↔ ∃ u b, x.run a = .ok (u, b) ∧ (f u).run b = .ok (v, c) := by
  rw [StateT.run_bind, PatternAutomata.bind_eq_ok]
  constructor
  · rintro ⟨⟨u, b⟩, h, h'⟩
    exact ⟨u, b, h, h'⟩
  · rintro ⟨u, b, h, h'⟩
    exact ⟨(u, b), h, h'⟩

theorem pure_eq_ok {v w : α} : (pure v : Grow α).run a = .ok (w, b) ↔ v = w ∧ a = b := by
  constructor
  · intro h
    cases h
    exact ⟨rfl, rfl⟩
  · rintro ⟨rfl, rfl⟩
    rfl

theorem get_bind {f : Arena → Grow β} {v : β} :
    ((get : Grow Arena) >>= f).run a = .ok (v, c) ↔ (f a).run a = .ok (v, c) := Iff.rfl

theorem add_eq_ok {k : NodeKind} (h : (add k).run a = .ok (id, b)) :
    id = a.kinds.size ∧ b.kinds = a.kinds.push k := by
  simp only [add, StateT.run] at h
  split at h
  · cases h
    exact ⟨rfl, rfl⟩
  · cases h

end Grow

/-- Growing from `a` to `b` has made the nodes `ids`, which wait. -/
structure Made (a b : Arena) (ids rest : List NodeId) : Prop where
  ext : a.Extends b
  sound : b.Sound (ids ++ rest)

/-- A node of kind `k` takes the place of those below it. -/
theorem made_add {k : NodeKind} (hs : a.Sound (k.children ++ rest)) (hk : k.WellShaped a.kind)
    (h : (Grow.add k).run a = .ok (id, b)) :
    Made a b [id] rest ∧ b.kind id = k ∧ id < b.kinds.size := by
  obtain ⟨rfl, hb⟩ := Grow.add_eq_ok h
  obtain ⟨hab, hnew⟩ := Arena.extends_push hb
  exact ⟨⟨hab, hs.push hk hb⟩, hnew, by rw [hb, Array.size_push]; exact Nat.lt_succ_self _⟩

theorem made_leaf {k : NodeKind} (hs : a.Sound rest) (hleaf : k.children = [])
    (hk : k.WellShaped a.kind) (h : (Grow.add k).run a = .ok (id, b)) :
    Made a b [id] rest ∧ b.kind id = k ∧ id < b.kinds.size :=
  made_add (by rw [hleaf]; exact hs) hk h

/-! ## Sequences and groups -/

theorem made_sequence {terms : List NodeId} (hs : a.Sound (terms ++ rest))
    (hterms : ∀ id ∈ terms, a.IsTerm lo hi id) (horder : terms.Pairwise (InOrder a.kind))
    (h : (Grow.sequence terms).run a = .ok (id, b)) :
    Made a b [id] rest ∧ b.IsAlternative lo hi id ∧ b.kind id = .sequence terms := by
  obtain ⟨hmade, hkind, hlt⟩ := made_add (k := .sequence terms) hs
    ⟨fun c hc => (hterms c hc).isTerm, horder⟩ h
  refine ⟨hmade, ⟨hlt, ⟨_, hkind⟩, .node ?_ fun c hc => ?_⟩, hkind⟩
  · rw [hkind]
    trivial
  · rw [hkind] at hc
    exact ((hterms c hc).extends hs hmade.ext).within

/-- A group around the captures in its alternatives is a term where these and its own lie in the
range. -/
theorem made_group {g : Group} (hs : a.Sound (g.alternatives ++ rest))
    (halternatives : ∀ id ∈ g.alternatives, a.IsAlternative g.innerStart g.innerEnd id)
    (hiterates : g.isQuantifier = true → g.Iterates a.kind)
    (hfits : (NodeKind.group g).FitsIn lo hi) (h : (Grow.add (.group g)).run a = .ok (id, b)) :
    Made a b [id] rest ∧ b.IsTerm lo hi id ∧ b.kind id = .group g := by
  obtain ⟨hmade, hkind, hlt⟩ := made_add (k := .group g) hs
    ⟨fun c hc => (halternatives c hc).sequence, hiterates, fun c hc => (halternatives c hc).within⟩ h
  refine ⟨hmade, ⟨hlt, by rw [hkind]; rfl, .node (by rw [hkind]; exact hfits) fun c hc => ?_⟩, hkind⟩
  rw [hkind] at hc
  exact ((halternatives c hc).extends hs hmade.ext).within.mono hfits.1.1 hfits.1.2

/-- A look-around around a plain group is a term, and has the captures of the group. -/
theorem made_look {direction : Direction} {negated : Bool} {body : NodeId} {g : Group}
    (hs : a.Sound (body :: rest)) (hbody : a.IsTerm g.innerStart g.innerEnd body)
    (hg : a.kind body = .group g) (hrole : g.role = .plain)
    (hrange : lo ≤ g.innerStart ∧ g.innerEnd ≤ hi)
    (h : (Grow.look direction negated body).run a = .ok (id, b)) :
    Made a b [id] rest ∧ b.IsTerm lo hi id ∧
      ∃ m, b.kind id = .look ⟨direction, negated, body, m⟩ := by
  obtain ⟨m, a1, hm, h⟩ := Grow.bind_eq_ok.mp h
  obtain ⟨hmade1, hkind1, hlt1⟩ := made_leaf hs (by rfl) (by trivial) hm
  have hbody1 := hbody.extends hs hmade1.ext
  have hs1 : a1.Sound ((NodeKind.look ⟨direction, negated, body, m⟩).children ++ rest) :=
    hmade1.sound.perm (.swap ..)
  obtain ⟨hmade, hkind, hlt⟩ := made_add hs1
    ⟨⟨g, (hmade1.ext.kind_eq body hbody.lt).trans hg, hrole, hbody1.within⟩, hkind1⟩ h
  refine ⟨⟨hmade1.ext.trans hmade.ext, hmade.sound⟩, ⟨hlt, by rw [hkind]; rfl,
    .node (by rw [hkind]; trivial) fun c hc => ?_⟩, m, hkind⟩
  rw [hkind] at hc
  rcases List.mem_cons.mp hc with rfl | hc
  · exact ((hbody1.extends hs1 hmade.ext).mono hrange.1 hrange.2).within
  · obtain rfl := List.mem_singleton.mp hc
    have hkind2 := (hmade.ext.kind_eq c hlt1).trans hkind1
    refine .node (by rw [hkind2]; trivial) fun c hc => ?_
    rw [hkind2] at hc
    cases hc

/-! ## Copies -/

/-- The node `id'` can stand wherever `id` can. -/
structure CopyOf (a : Arena) (id id' : NodeId) : Prop where
  lt : id < a.kinds.size
  lt' : id' < a.kinds.size
  isTerm : (a.kind id).isTerm = true → (a.kind id').isTerm = true
  sequence : ∀ terms, a.kind id = .sequence terms →
    ∃ terms', a.kind id' = .sequence terms' ∧ (terms = [] ↔ terms' = [])
  group : ∀ g, a.kind id = .group g →
    ∃ alternatives, a.kind id' = .group { g with alternatives }
  within : ∀ lo hi, Within a.kind lo hi id → Within a.kind lo hi id'

theorem CopyOf.extends {pending : List NodeId} (h : CopyOf a id id') (hs : a.Sound pending)
    (hab : a.Extends b) : CopyOf b id id' := by
  have hkind := hab.kind_eq id h.lt
  have hkind' := hab.kind_eq id' h.lt'
  refine ⟨Nat.lt_of_lt_of_le h.lt hab.size_le, Nat.lt_of_lt_of_le h.lt' hab.size_le, ?_, ?_, ?_,
    fun lo hi hw => ?_⟩
  · rw [hkind, hkind']
    exact h.isTerm
  · rw [hkind, hkind']
    exact h.sequence
  · rw [hkind, hkind']
    exact h.group
  · exact (Arena.within_iff hs hab h.lt').mpr
      (h.within lo hi ((Arena.within_iff hs hab h.lt).mp hw))

theorem CopyOf.mayFollow (h : CopyOf a id id') (hfollow : MayFollow a.kind lo hi id) :
    MayFollow a.kind lo hi id' := by
  rcases hfollow with ⟨hi', hwithin⟩ | ⟨g, hg, hfollow⟩
  · exact .inl ⟨hi', h.within _ _ hwithin⟩
  · obtain ⟨alternatives, hg'⟩ := h.group g hg
    exact .inr ⟨_, hg', hfollow⟩

theorem CopyOf.inOrder {c c' : NodeId} (h : CopyOf a id id') (h' : CopyOf a c c')
    (horder : InOrder a.kind id c) : InOrder a.kind id' c' :=
  let ⟨lo, hi, hwithin, hfollow⟩ := horder
  ⟨lo, hi, h.within lo hi hwithin, h'.mayFollow hfollow⟩

/-- A node of kind `k'` can stand wherever one of kind `k` can, as far as it is up to the nodes
themselves. -/
structure NodeKind.Like (k k' : NodeKind) : Prop where
  isTerm : k.isTerm = true → k'.isTerm = true
  sequence : ∀ terms, k = .sequence terms → ∃ terms', k' = .sequence terms' ∧ (terms = [] ↔ terms' = [])
  group : ∀ g, k = .group g → ∃ alternatives, k' = .group { g with alternatives }
  fitsIn : ∀ lo hi, k.FitsIn lo hi → k'.FitsIn lo hi

theorem NodeKind.Like.refl (k : NodeKind) : k.Like k :=
  ⟨id, fun terms h => ⟨terms, h, Iff.rfl⟩, fun g h => ⟨g.alternatives, h⟩, fun _ _ => id⟩

theorem NodeKind.like_group (g : Group) (alternatives : List NodeId) :
    (NodeKind.group g).Like (.group { g with alternatives }) := by
  refine ⟨id, ?_, ?_, fun _ _ => id⟩
  · rintro _ ⟨⟩
  · rintro _ ⟨⟩
    exact ⟨alternatives, rfl⟩

theorem NodeKind.like_sequence {terms terms' : List NodeId} (h : terms = [] ↔ terms' = []) :
    (NodeKind.sequence terms).Like (.sequence terms') := by
  refine ⟨id, ?_, ?_, fun _ _ => id⟩
  · rintro _ ⟨⟩
    exact ⟨terms', rfl, h⟩
  · rintro _ ⟨⟩

theorem NodeKind.like_look (l l' : LookAround) : (NodeKind.look l).Like (.look l') := by
  refine ⟨id, ?_, ?_, fun _ _ => id⟩
  · rintro _ ⟨⟩
  · rintro _ ⟨⟩

/-- A node above copies of the children is a copy. -/
theorem CopyOf.of_like (hlt : id < a.kinds.size) (hlt' : id' < a.kinds.size)
    (hlike : (a.kind id).Like (a.kind id'))
    (h : List.Forall₂ (CopyOf a) (a.kind id).children (a.kind id').children) : CopyOf a id id' where
  lt := hlt
  lt' := hlt'
  isTerm := hlike.isTerm
  sequence := hlike.sequence
  group := hlike.group
  within lo hi hw := .node (hlike.fitsIn lo hi hw.fitsIn) fun c' hc' => by
    obtain ⟨c, hc, hcopy⟩ := exists_of_mem_right h hc'
    exact hcopy.within lo hi (hw.child hc)

/-- Copies of the alternatives of a quantifier are again those of one. -/
theorem Group.Iterates.copy {g : Group} {alternatives : List NodeId} (h : g.Iterates a.kind)
    (hcopies : List.Forall₂ (CopyOf a) g.alternatives alternatives) :
    ({ g with alternatives } : Group).Iterates a.kind := by
  have hbody : ∀ {body body' : NodeId} {term : NodeId} {terms : List NodeId}, CopyOf a body body' →
      a.kind body = .sequence (term :: terms) →
      ∃ term' terms', a.kind body' = .sequence (term' :: terms') := by
    intro body body' term terms hcopy hk
    obtain ⟨terms', hk', hiff⟩ := hcopy.sequence _ hk
    cases terms' with
    | nil => cases hiff.mpr rfl
    | cons term' terms' => exact ⟨term', terms', hk'⟩
  have hempty : ∀ {empty empty' : NodeId}, CopyOf a empty empty' → a.kind empty = .sequence [] →
      a.kind empty' = .sequence [] := by
    intro empty empty' hcopy hk
    obtain ⟨terms', hk', hiff⟩ := hcopy.sequence _ hk
    rw [hk', hiff.mp rfl]
  obtain ⟨body, term, terms, hk, ⟨hno, h⟩ | ⟨empty, hk', h | h⟩⟩ := h
  · rw [h] at hcopies
    obtain ⟨body', _, hcopy, hnil, rfl⟩ := List.forall₂_cons_left_iff.mp hcopies
    obtain rfl := List.forall₂_nil_left_iff.mp hnil
    obtain ⟨term', terms', hk'⟩ := hbody hcopy hk
    exact ⟨body', term', terms', hk', .inl ⟨hno, rfl⟩⟩
  all_goals
    rw [h] at hcopies
    obtain ⟨c, _, hcopy, hrest, rfl⟩ := List.forall₂_cons_left_iff.mp hcopies
    obtain ⟨c', _, hcopy', hnil, rfl⟩ := List.forall₂_cons_left_iff.mp hrest
    obtain rfl := List.forall₂_nil_left_iff.mp hnil
  · obtain ⟨term', terms', hterms⟩ := hbody hcopy hk
    exact ⟨c, term', terms', hterms, .inr ⟨c', hempty hcopy' hk', .inl rfl⟩⟩
  · obtain ⟨term', terms', hterms⟩ := hbody hcopy' hk
    exact ⟨c', term', terms', hterms, .inr ⟨c, hempty hcopy hk', .inr rfl⟩⟩

/-- What `f` makes of each of the nodes `ids` is a copy of it, wherever more has been made before. -/
def Copies (f : NodeId → Grow NodeId) (ids : List NodeId) : Prop :=
  ∀ id ∈ ids, ∀ a b id' rest, id < a.kinds.size → a.Sound rest → (f id).run a = .ok (id', b) →
    Made a b [id'] rest ∧ CopyOf b id id'

theorem made_mapM {f : NodeId → Grow NodeId} {ids ids' : List NodeId} (hf : Copies f ids)
    (hlt : ∀ id ∈ ids, id < a.kinds.size) (hs : a.Sound rest)
    (h : (ids.mapM f).run a = .ok (ids', b)) :
    Made a b ids' rest ∧ List.Forall₂ (CopyOf b) ids ids' := by
  induction ids generalizing a ids' rest with
  | nil =>
    obtain ⟨rfl, rfl⟩ := Grow.pure_eq_ok.mp h
    exact ⟨⟨.refl _, hs⟩, .nil⟩
  | cons id ids ih =>
    rw [List.mapM_cons] at h
    obtain ⟨id', a1, h1, h⟩ := Grow.bind_eq_ok.mp h
    obtain ⟨more, a2, h2, h⟩ := Grow.bind_eq_ok.mp h
    obtain ⟨rfl, rfl⟩ := Grow.pure_eq_ok.mp h
    obtain ⟨hmade1, hcopy⟩ := hf id (by simp) a a1 id' rest (hlt id (by simp)) hs h1
    obtain ⟨hmade2, hcopies⟩ := ih (fun c hc => hf c (by simp [hc]))
      (fun c hc => Nat.lt_of_lt_of_le (hlt c (by simp [hc])) hmade1.ext.size_le) hmade1.sound h2
    refine ⟨⟨hmade1.ext.trans hmade2.ext, hmade2.sound.perm List.perm_middle⟩, .cons ?_ hcopies⟩
    exact hcopy.extends hmade1.sound hmade2.ext

/-- What is made above copies of the children of a node is a copy of it, if it is shaped like it. -/
theorem made_above {k : NodeKind} (hlt : id < a.kinds.size) (hmade : Made a b k.children rest)
    (hcopies : List.Forall₂ (CopyOf b) (a.kind id).children k.children)
    (hshape : k.WellShaped b.kind) (hlike : (a.kind id).Like k)
    (h : (Grow.add k).run b = .ok (id', c)) : Made a c [id'] rest ∧ CopyOf c id id' := by
  obtain ⟨hmade', hkind, hlt'⟩ := made_add hmade.sound hshape h
  have hext := hmade.ext.trans hmade'.ext
  refine ⟨⟨hext, hmade'.sound⟩, .of_like (Nat.lt_of_lt_of_le hlt hext.size_le) hlt' ?_ ?_⟩ <;>
    rw [hext.kind_eq id hlt, hkind]
  · exact hlike
  · exact hcopies.imp fun _ _ h => h.extends hmade.sound hmade'.ext

section Kinds

variable {f : NodeId → Grow NodeId} {g : Group} {l : LookAround} {terms : List NodeId}

theorem made_copyOfGroup (hk : a.kind id = .group g) (hlt : id < a.kinds.size) (hs : a.Sound rest)
    (hf : Copies f g.alternatives) (h : (do
      let alternatives ← g.alternatives.mapM f
      Grow.add (.group { g with alternatives })).run a = .ok (id', b)) :
    Made a b [id'] rest ∧ CopyOf b id id' := by
  have hshape := hs.shaped id
  have hchild := hs.child_lt id
  rw [hk] at hshape hchild
  obtain ⟨alternatives, a1, h1, h⟩ := Grow.bind_eq_ok.mp h
  obtain ⟨hmade1, hcopies⟩ := made_mapM hf (fun c hc => Nat.lt_trans (hchild c hc) hlt) hs h1
  have hkept : ∀ c ∈ g.alternatives, a1.kind c = a.kind c := fun c hc =>
    hmade1.ext.kind_eq c (Nat.lt_trans (hchild c hc) hlt)
  have hshape' : (NodeKind.group { g with alternatives }).WellShaped a1.kind := by
    refine ⟨fun c' hc' => ?_, fun hq => ?_, fun c' hc' => ?_⟩
    · obtain ⟨c, hc, hcopy⟩ := exists_of_mem_right hcopies hc'
      obtain ⟨terms, hterms⟩ := hshape.1 c hc
      obtain ⟨terms', hterms', -⟩ := hcopy.sequence terms ((hkept c hc).trans hterms)
      exact ⟨terms', hterms'⟩
    · exact ((hshape.2.1 hq).congr hkept).copy hcopies
    · obtain ⟨c, hc, hcopy⟩ := exists_of_mem_right hcopies hc'
      exact hcopy.within _ _ ((Arena.within_iff hs hmade1.ext (Nat.lt_trans (hchild c hc) hlt)).mpr
        (hshape.2.2 c hc))
  refine made_above hlt hmade1 ?_ hshape' ?_ h <;> rw [hk]
  · exact hcopies
  · exact NodeKind.like_group g alternatives

theorem made_copyOfSequence (hk : a.kind id = .sequence terms) (hlt : id < a.kinds.size)
    (hs : a.Sound rest) (hf : Copies f terms)
    (h : (do Grow.sequence (← terms.mapM f)).run a = .ok (id', b)) :
    Made a b [id'] rest ∧ CopyOf b id id' := by
  have hshape := hs.shaped id
  have hchild := hs.child_lt id
  rw [hk] at hshape hchild
  obtain ⟨terms', a1, h1, h⟩ := Grow.bind_eq_ok.mp h
  obtain ⟨hmade1, hcopies⟩ := made_mapM hf (fun c hc => Nat.lt_trans (hchild c hc) hlt) hs h1
  have hshape' : (NodeKind.sequence terms').WellShaped a1.kind := by
    refine ⟨fun c' hc' => ?_, pairwise_of_forall₂ (fun _ _ _ _ h h' => h.inOrder h') hcopies
      (Arena.inOrder_extends hs hmade1.ext (fun c hc => Nat.lt_trans (hchild c hc) hlt) hshape.2)⟩
    obtain ⟨c, hc, hcopy⟩ := exists_of_mem_right hcopies hc'
    have hkept := hmade1.ext.kind_eq c (Nat.lt_trans (hchild c hc) hlt)
    exact hcopy.isTerm (hkept.symm ▸ hshape.1 c hc)
  refine made_above hlt hmade1 ?_ hshape' ?_ h <;> rw [hk]
  · exact hcopies
  · refine NodeKind.like_sequence ?_
    rw [← List.length_eq_zero_iff, hcopies.length_eq, List.length_eq_zero_iff]

theorem made_copyOfLook (hk : a.kind id = .look l) (hlt : id < a.kinds.size) (hs : a.Sound rest)
    (hf : Copies f [l.body])
    (h : (do Grow.look l.direction l.negated (← f l.body)).run a = .ok (id', b)) :
    Made a b [id'] rest ∧ CopyOf b id id' := by
  have hshape := hs.shaped id
  have hchild := hs.child_lt id
  rw [hk] at hshape hchild
  have hbody : l.body < a.kinds.size := Nat.lt_trans (hchild l.body (.head _)) hlt
  have hend : l.matchFound < a.kinds.size :=
    Nat.lt_trans (hchild l.matchFound (.tail _ (.head _))) hlt
  obtain ⟨body, a1, h1, h⟩ := Grow.bind_eq_ok.mp h
  obtain ⟨hmade1, hcopy⟩ := hf l.body (List.mem_singleton_self _) a a1 body rest hbody hs h1
  obtain ⟨⟨g, hg, hrole, hwithin⟩, hfound⟩ := hshape
  have hg1 := (hmade1.ext.kind_eq l.body hbody).trans hg
  obtain ⟨alternatives, hg'⟩ := hcopy.group g hg1
  have hterm : a1.IsTerm g.innerStart g.innerEnd body :=
    ⟨hcopy.lt', hcopy.isTerm (by rw [hg1]; rfl),
      hcopy.within _ _ ((Arena.within_iff hs hmade1.ext hbody).mpr hwithin)⟩
  obtain ⟨hmade2, hlook, m, hkind⟩ := made_look (g := { g with alternatives }) hmade1.sound hterm
    hg' hrole ⟨Nat.le_refl _, Nat.le_refl _⟩ h
  have hext := hmade1.ext.trans hmade2.ext
  have hfound' : b.kind m = .matchFound := by
    have := hmade2.sound.shaped id'
    rw [hkind] at this
    exact this.2
  have hm : m < b.kinds.size := by
    have := hmade2.sound.child_lt id' m (by rw [hkind]; exact .tail _ (.head _))
    exact Nat.lt_trans this hlook.lt
  have hends : CopyOf b l.matchFound m := by
    refine .of_like (Nat.lt_of_lt_of_le hend hext.size_le) hm ?_ ?_ <;>
      rw [(hext.kind_eq _ hend).trans hfound, hfound']
    · exact .refl _
    · exact .nil
  refine ⟨⟨hext, hmade2.sound⟩, .of_like (Nat.lt_of_lt_of_le hlt hext.size_le) hlook.lt ?_ ?_⟩ <;>
    rw [(hext.kind_eq id hlt).trans hk, hkind]
  · exact NodeKind.like_look ..
  · exact .cons (hcopy.extends hmade1.sound hmade2.ext) (.cons hends .nil)

theorem made_copyOfLeaf (hleaf : (a.kind id).children = []) (hlt : id < a.kinds.size)
    (hs : a.Sound rest) (h : (Grow.add (a.kind id)).run a = .ok (id', b)) :
    Made a b [id'] rest ∧ CopyOf b id id' := by
  refine made_above hlt ⟨.refl _, ?_⟩ ?_ (hs.shaped id) (.refl _) h <;> rw [hleaf]
  · exact hs
  · exact .nil

end Kinds

/-- Children have smaller numbers, so the fuel lasts for them. -/
theorem copies_copyWithin (fuel : Nat) (ids : List NodeId) (hids : ∀ id ∈ ids, id < fuel) :
    Copies (Grow.copyWithin fuel) ids := by
  induction fuel generalizing ids with
  | zero => exact fun id hid => absurd (hids id hid) (Nat.not_lt_zero _)
  | succ fuel ih =>
    intro id hid a b id' rest hlt hs h
    have hchild : ∀ c ∈ (a.kind id).children, c < fuel := fun c hc =>
      Nat.lt_of_lt_of_le (hs.child_lt id c hc) (Nat.le_of_lt_succ (hids id hid))
    unfold Grow.copyWithin at h
    rw [Grow.get_bind] at h
    rw [show a.kinds.getD id .matchFound = a.kind id from rfl] at h
    cases hk : a.kind id with
    | group g =>
      rw [hk] at h hchild
      exact made_copyOfGroup hk hlt hs (ih _ hchild) h
    | sequence terms =>
      rw [hk] at h hchild
      exact made_copyOfSequence hk hlt hs (ih _ hchild) h
    | look l =>
      rw [hk] at h hchild
      exact made_copyOfLook hk hlt hs (ih _ (by simpa using hchild l.body (.head _))) h
    | _ =>
      rw [hk] at h
      exact made_copyOfLeaf (by rw [hk]; rfl) hlt hs (by rw [hk]; exact h)

/-- A copy of a term is a term, and has its captures in the same ranges. -/
theorem made_copy (hs : a.Sound rest) (hid : a.IsTerm lo hi id)
    (h : (Grow.copy id).run a = .ok (id', b)) : Made a b [id'] rest ∧ b.IsTerm lo hi id' := by
  unfold Grow.copy at h
  rw [Grow.get_bind] at h
  obtain ⟨hmade, hcopy⟩ := copies_copyWithin a.kinds.size [id] (by simpa using hid.lt) id (by simp)
    a b id' rest hid.lt hs h
  have hid' := hid.extends hs hmade.ext
  exact ⟨hmade, hcopy.lt', hcopy.isTerm hid'.isTerm, hcopy.within _ _ hid'.within⟩

end PatternAutomata
