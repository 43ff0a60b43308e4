import PatternAutomata.Pattern.Quantifier
import PatternAutomata.Proofs.Tree.Copying

/-!
# What quantifiers are built into

The terms that an atom under a quantifier stands for are well-shaped, and their captures lie where
those of the atom lie.
-/

namespace PatternAutomata.Pattern

variable {a b : Arena} {atom id : NodeId} {ids rest : List NodeId} {lo hi : Nat}

/-- The atom, while it has not been used. -/
def unused (atom : NodeId) (used : Bool) : List NodeId := if used then [] else [atom]

theorem made_instanceOf {used : Bool} (hs : a.Sound (unused atom used ++ rest))
    (hatom : a.IsTerm lo hi atom) (h : (instanceOf atom used).run a = .ok (id, b)) :
    Made a b [id] rest ∧ b.IsTerm lo hi id := by
  cases used with
  | true => exact made_copy hs hatom h
  | false =>
    obtain ⟨rfl, rfl⟩ := Grow.pure_eq_ok.mp h
    exact ⟨⟨.refl _, hs⟩, hatom⟩

theorem mayFollow_of_isQuantifier {g : Group} (hg : a.kind id = .group g)
    (hq : g.isQuantifier = true) : MayFollow a.kind g.innerStart g.innerEnd id :=
  .inr ⟨g, hg, hq, Nat.le_refl _, Nat.le_refl _⟩

theorem made_optional {terms : List NodeId} {greedy : Bool} {role : GroupRole}
    (hs : a.Sound (terms ++ rest)) (hterms : ∀ id ∈ terms, a.IsTerm lo hi id)
    (horder : terms.Pairwise (InOrder a.kind)) (hne : terms ≠ [])
    (hrole : role = .loop ∨ role = .unrolled)
    (h : (optional terms greedy role lo hi).run a = .ok (id, b)) :
    Made a b [id] rest ∧ b.IsIteration lo hi id := by
  obtain ⟨body, a1, h1, h⟩ := Grow.bind_eq_ok.mp h
  obtain ⟨empty, a2, h2, h⟩ := Grow.bind_eq_ok.mp h
  obtain ⟨hmade1, hbody, hkind1⟩ := made_sequence hs hterms horder h1
  obtain ⟨hmade2, hempty, hkind⟩ := made_sequence
    (show a1.Sound ([] ++ ([body] ++ rest)) from hmade1.sound)
    (show ∀ id ∈ [], a1.IsTerm lo hi id by simp) .nil h2
  replace hkind1 := (hmade2.ext.kind_eq body hbody.lt).trans hkind1
  replace hbody := hbody.extends hmade1.sound hmade2.ext
  have hfits : (NodeKind.group ⟨if greedy then [body, empty] else [empty, body], role, lo,
      hi⟩).FitsIn lo hi := by
    refine ⟨⟨Nat.le_refl _, Nat.le_refl _⟩, fun n hn => ?_⟩
    rcases hrole with rfl | rfl <;> cases hn
  have hs2 : a2.Sound ((if greedy then [body, empty] else [empty, body]) ++ rest) := by
    cases greedy with
    | true => exact hmade2.sound.perm (.swap ..)
    | false => exact hmade2.sound
  have hiterates : (⟨if greedy then [body, empty] else [empty, body], role, lo, hi⟩ :
      Group).Iterates a2.kind := by
    obtain ⟨term, terms, rfl⟩ := List.exists_cons_of_ne_nil hne
    refine ⟨body, term, terms, hkind1, .inr ⟨empty, hkind, ?_⟩⟩
    cases greedy with
    | true => exact .inl rfl
    | false => exact .inr rfl
  obtain ⟨hmade3, hterm, hgroup⟩ := made_group (g := ⟨if greedy then [body, empty] else [empty, body],
    role, lo, hi⟩) hs2 (fun c hc => by
      have : c = body ∨ c = empty := by cases greedy <;> simp at hc <;> tauto
      rcases this with rfl | rfl
      · exact hbody
      · exact hempty) (fun _ => hiterates) hfits h
  refine ⟨⟨(hmade1.ext.trans hmade2.ext).trans hmade3.ext, hmade3.sound⟩, hterm,
    mayFollow_of_isQuantifier hgroup ?_⟩
  rcases hrole with rfl | rfl <;> rfl

theorem made_mandatory (n : Nat) {used : Bool} (hs : a.Sound (unused atom used ++ rest))
    (hatom : a.IsTerm lo hi atom) (h : (mandatory atom lo hi n used).run a = .ok (ids, b)) :
    Made a b ids (unused atom (used || 0 < n) ++ rest) ∧ ∀ id ∈ ids, b.IsIteration lo hi id := by
  induction n generalizing a used ids rest with
  | zero =>
    obtain ⟨rfl, rfl⟩ := Grow.pure_eq_ok.mp h
    refine ⟨⟨.refl _, ?_⟩, by simp⟩
    simpa using hs
  | succ n ih =>
    obtain ⟨iteration, a1, h1, h⟩ := Grow.bind_eq_ok.mp h
    obtain ⟨hmade1, hiteration⟩ := made_instanceOf hs hatom h1
    obtain ⟨term, a2, hmade2, hterm, h⟩ : ∃ term a2, Made a1 a2 [term] rest ∧
        a2.IsIteration lo hi term ∧
        (mandatory atom lo hi n true >>= fun more => pure (term :: more)).run a2 = .ok (ids, b) := by
      simp only at h
      split at h
      · obtain ⟨body, a1', h1', h⟩ := Grow.bind_eq_ok.mp h
        obtain ⟨term, a2, h2, h⟩ := Grow.bind_eq_ok.mp h
        obtain ⟨hmade1', hbody, hkind⟩ := made_sequence hmade1.sound (by simpa using hiteration)
          (List.pairwise_singleton ..) h1'
        obtain ⟨hmade2, hterm, hgroup⟩ := made_group (g := ⟨[body], .unrolled, lo, hi⟩)
          hmade1'.sound (by simpa using hbody)
          (fun _ => ⟨body, iteration, [], hkind, .inl ⟨rfl, rfl⟩⟩)
          ⟨⟨Nat.le_refl _, Nat.le_refl _⟩, by simp [Group.number?]⟩ h2
        exact ⟨term, a2, ⟨hmade1'.ext.trans hmade2.ext, hmade2.sound⟩,
          ⟨hterm, mayFollow_of_isQuantifier hgroup rfl⟩, h⟩
      · rename_i hempty
        -- There are no captures that would have to be reset.
        have hfollow : MayFollow a1.kind lo hi iteration :=
          .inl ⟨hi, hiteration.within.mono (Nat.le_of_not_lt hempty) (Nat.le_refl _)⟩
        exact ⟨iteration, a1, ⟨.refl _, hmade1.sound⟩, ⟨hiteration, hfollow⟩, h⟩
    obtain ⟨more, a3, h3, h⟩ := Grow.bind_eq_ok.mp h
    obtain ⟨rfl, rfl⟩ := Grow.pure_eq_ok.mp h
    obtain ⟨hmade3, hmore⟩ := ih hmade2.sound
      ((hatom.extends hs hmade1.ext).extends hmade1.sound hmade2.ext) h3
    refine ⟨⟨(hmade1.ext.trans hmade2.ext).trans hmade3.ext, ?_⟩, fun id hid => ?_⟩
    · refine hmade3.sound.perm ?_
      simp [unused, List.perm_middle]
    · rcases List.mem_cons.mp hid with rfl | hid
      · exact hterm.extends hmade2.sound hmade3.ext
      · exact hmore id hid

theorem made_instances (n : Nat) {used : Bool} (hs : a.Sound (unused atom used ++ rest))
    (hatom : a.IsTerm lo hi atom) (h : (instances atom n used).run a = .ok (ids, b)) :
    Made a b ids rest ∧ ∀ id ∈ ids, b.IsTerm lo hi id := by
  induction n generalizing a used ids rest with
  | zero =>
    obtain ⟨rfl, rfl⟩ := Grow.pure_eq_ok.mp h
    exact ⟨⟨.refl _, hs.drop_pending⟩, by simp⟩
  | succ n ih =>
    obtain ⟨iteration, a1, h1, h⟩ := Grow.bind_eq_ok.mp h
    obtain ⟨more, a2, h2, h⟩ := Grow.bind_eq_ok.mp h
    obtain ⟨rfl, rfl⟩ := Grow.pure_eq_ok.mp h
    obtain ⟨hmade1, hiteration⟩ := made_instanceOf hs hatom h1
    obtain ⟨hmade2, hmore⟩ := ih hmade1.sound (hatom.extends hs hmade1.ext) h2
    refine ⟨⟨hmade1.ext.trans hmade2.ext, hmade2.sound.perm List.perm_middle⟩, fun id hid => ?_⟩
    rcases List.mem_cons.mp hid with rfl | hid
    · exact hiteration.extends hmade1.sound hmade2.ext
    · exact hmore id hid

theorem made_nested {bodies : List NodeId} {greedy : Bool} (hs : a.Sound (bodies ++ rest))
    (hbodies : ∀ id ∈ bodies, a.IsTerm lo hi id)
    (h : (nested bodies greedy lo hi).run a = .ok (ids, b)) :
    Made a b ids rest ∧ ∀ id ∈ ids, b.IsIteration lo hi id := by
  induction bodies generalizing b ids rest with
  | nil =>
    obtain ⟨rfl, rfl⟩ := Grow.pure_eq_ok.mp h
    exact ⟨⟨.refl _, hs⟩, by simp⟩
  | cons body bodies ih =>
    unfold nested at h ih
    rw [List.foldrM_cons] at h
    obtain ⟨inner, a1, h1, h⟩ := Grow.bind_eq_ok.mp h
    obtain ⟨term, a2, h2, h⟩ := Grow.bind_eq_ok.mp h
    obtain ⟨rfl, rfl⟩ := Grow.pure_eq_ok.mp h
    have hs' : a.Sound (bodies ++ body :: rest) := hs.perm List.perm_middle.symm
    obtain ⟨hmade1, hinner⟩ := ih hs' (fun id hid => hbodies id (by simp [hid])) h1
    have hbody := (hbodies body (by simp)).extends hs hmade1.ext
    obtain ⟨hmade2, hterm⟩ := made_optional
      (show a1.Sound ((body :: inner) ++ rest) from hmade1.sound.perm List.perm_middle) (fun id hid => by
        rcases List.mem_cons.mp hid with rfl | hid
        · exact hbody
        · exact (hinner id hid).toIsTerm) (Arena.inOrder_cons hbody hinner)
      (by simp) (.inr rfl) h2
    exact ⟨⟨hmade1.ext.trans hmade2.ext, hmade2.sound⟩, by simpa using hterm⟩

/-- What a quantified atom stands for is made of iterations with the captures of the atom. -/
theorem made_quantify {q : Quantifier} (hs : a.Sound (atom :: rest)) (hatom : a.IsTerm lo hi atom)
    (h : (quantify q atom lo hi).run a = .ok (ids, b)) :
    Made a b ids rest ∧ ∀ id ∈ ids, b.IsIteration lo hi id := by
  obtain ⟨needed, a1, h1, h⟩ := Grow.bind_eq_ok.mp h
  obtain ⟨hmade1, hneeded⟩ := made_mandatory q.min hs hatom h1
  rw [Bool.false_or] at hmade1
  have hatom1 := hatom.extends hs hmade1.ext
  have hs1 : a1.Sound (unused atom (decide (0 < q.min)) ++ (needed ++ rest)) :=
    hmade1.sound.perm (by
      rw [← List.append_assoc, ← List.append_assoc]
      exact List.perm_append_comm.append_right _)
  have hjoin : ∀ {b : Arena} {more : List NodeId}, Made a1 b more (needed ++ rest) →
      (∀ id ∈ more, b.IsIteration lo hi id) →
      Made a b (needed ++ more) rest ∧ ∀ id ∈ needed ++ more, b.IsIteration lo hi id := by
    intro b more hmade hmore
    refine ⟨⟨hmade1.ext.trans hmade.ext, hmade.sound.perm ?_⟩, fun id hid => ?_⟩
    · rw [← List.append_assoc]
      exact List.perm_append_comm.append_right _
    · rcases List.mem_append.mp hid with hid | hid
      · exact (hneeded id hid).extends hmade1.sound hmade.ext
      · exact hmore id hid
  cases hmax : q.max with
  | none =>
    rw [hmax] at h
    obtain ⟨body, a2, h2, h⟩ := Grow.bind_eq_ok.mp h
    obtain ⟨term, a3, h3, h⟩ := Grow.bind_eq_ok.mp h
    obtain ⟨rfl, rfl⟩ := Grow.pure_eq_ok.mp h
    obtain ⟨hmade2, hbody⟩ := made_instanceOf hs1 hatom1 h2
    obtain ⟨hmade3, hterm⟩ := made_optional hmade2.sound (by simpa using hbody)
      (List.pairwise_singleton ..) (by simp) (.inl rfl) h3
    exact hjoin ⟨hmade2.ext.trans hmade3.ext, hmade3.sound⟩ (by simpa using hterm)
  | some max =>
    rw [hmax] at h
    obtain ⟨bodies, a2, h2, h⟩ := Grow.bind_eq_ok.mp h
    obtain ⟨terms, a3, h3, h⟩ := Grow.bind_eq_ok.mp h
    obtain ⟨rfl, rfl⟩ := Grow.pure_eq_ok.mp h
    obtain ⟨hmade2, hbodies⟩ := made_instances _ hs1 hatom1 h2
    obtain ⟨hmade3, hterms⟩ := made_nested hmade2.sound hbodies h3
    exact hjoin ⟨hmade2.ext.trans hmade3.ext, hmade3.sound⟩ hterms

end PatternAutomata.Pattern
