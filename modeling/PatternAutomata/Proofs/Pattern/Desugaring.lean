import PatternAutomata.Proofs.Pattern.Source

/-!
# What quantifiers and groups become

The nodes that are made for an atom under a quantifier, and for a group, have the outlines that source
trees give to them. The numbers of the iterations are in the outlines, and the order in which optional
ones are tried.
-/

namespace PatternAutomata.Pattern

open Grow

variable {a : Arena} {atom : NodeId} {x : Outline} {lo hi : Nat}

/-! ## Quantifiers -/

theorem ensures_instanceOf (ha : a.Ordered) (hatom : Drawn x atom a) (used : Bool) :
    Ensures (instanceOf atom used) a (Drawn x) := by
  unfold instanceOf
  split
  · have hcopy := ensures_copy ha hatom.1
    rwa [hatom.2] at hcopy
  · exact ensures_pure ha hatom

theorem ensures_optional {terms : List NodeId} {os : List Outline} (ha : a.Ordered)
    (h : AllDrawn os terms a) (greedy : Bool) (role : GroupRole) :
    Ensures (optional terms greedy role lo hi) a
      (Drawn (Quantifier.optionalOutline greedy role lo hi os)) := by
  refine ensures_bind (ensures_sequence ha h) fun body b _ hb hbody => ?_
  refine ensures_bind (ensures_sequence hb allDrawn_nil) fun empty c hbc hc hempty => ?_
  have hbody := hbody.extends hb hbc
  refine ensures_group hc ?_
  cases greedy with
  | true => exact allDrawn_cons.mpr ⟨hbody, allDrawn_cons.mpr ⟨hempty, allDrawn_nil⟩⟩
  | false => exact allDrawn_cons.mpr ⟨hempty, allDrawn_cons.mpr ⟨hbody, allDrawn_nil⟩⟩

theorem ensures_mandatory (ha : a.Ordered) (hatom : Drawn x atom a) (n : Nat) (used : Bool) :
    Ensures (mandatory atom lo hi n used) a
      (AllDrawn (List.replicate n (Quantifier.iterationOutline lo hi x))) := by
  induction n generalizing a used with
  | zero => exact ensures_pure ha allDrawn_nil
  | succ n ih =>
    have hrest : ∀ {b : Arena} {term : NodeId}, a.Extends b → b.Ordered →
        Drawn (Quantifier.iterationOutline lo hi x) term b →
        Ensures (mandatory atom lo hi n true >>= fun more => pure (term :: more)) b
          (AllDrawn (List.replicate (n + 1) (Quantifier.iterationOutline lo hi x))) := by
      intro b term hab hb hterm
      refine ensures_bind (ih hb (hatom.extends ha hab) true) fun more c hbc hc hmore =>
        ensures_pure hc ?_
      exact allDrawn_cons.mpr ⟨hterm.extends hb hbc, hmore⟩
    refine ensures_bind (ensures_instanceOf ha hatom used) fun iteration b hab hb hiteration => ?_
    unfold Quantifier.iterationOutline at hrest ⊢
    by_cases hlt : lo < hi
    · simp only [hlt, if_true] at hrest ⊢
      refine ensures_bind (ensures_sequence hb (allDrawn_cons.mpr ⟨hiteration, allDrawn_nil⟩))
        fun body c hbc hc hbody => ?_
      refine ensures_bind (ensures_group (g := ⟨[body], .unrolled, lo, hi⟩) hc
        (allDrawn_cons.mpr ⟨hbody, allDrawn_nil⟩)) fun term d hcd hd hterm => ?_
      exact hrest ((hab.trans hbc).trans hcd) hd hterm
    · simp only [hlt, if_false] at hrest ⊢
      exact hrest hab hb hiteration

theorem ensures_instances (ha : a.Ordered) (hatom : Drawn x atom a) (n : Nat) (used : Bool) :
    Ensures (instances atom n used) a (AllDrawn (List.replicate n x)) := by
  induction n generalizing a used with
  | zero => exact ensures_pure ha allDrawn_nil
  | succ n ih =>
    refine ensures_bind (ensures_instanceOf ha hatom used) fun iteration b hab hb hiteration => ?_
    refine ensures_bind (ih hb (hatom.extends ha hab) true) fun more c hbc hc hmore =>
      ensures_pure hc ?_
    exact allDrawn_cons.mpr ⟨hiteration.extends hb hbc, hmore⟩

/-- The innermost iteration is made first. -/
theorem ensures_nested {bodies : List NodeId} (ha : a.Ordered)
    (h : AllDrawn (List.replicate bodies.length x) bodies a) (greedy : Bool) :
    Ensures (nested bodies greedy lo hi) a
      (AllDrawn (Quantifier.nestedOutline greedy lo hi x bodies.length)) := by
  induction bodies with
  | nil => exact ensures_pure ha allDrawn_nil
  | cons body bodies ih =>
    obtain ⟨hbody, hbodies⟩ := allDrawn_cons.mp h
    rw [nested, List.foldrM_cons]
    refine ensures_bind (ih hbodies) fun inner b hab hb hinner => ?_
    refine ensures_bind (ensures_optional hb (allDrawn_cons.mpr ⟨hbody.extends ha hab, hinner⟩) greedy
      .unrolled) fun term c _ hc hterm => ensures_pure hc ?_
    exact allDrawn_cons.mpr ⟨hterm, allDrawn_nil⟩

theorem ensures_quantify (ha : a.Ordered) (hatom : Drawn x atom a) (q : Quantifier) :
    Ensures (quantify q atom lo hi) a (AllDrawn (q.outlines lo hi x)) := by
  unfold quantify Quantifier.outlines
  refine ensures_bind (ensures_mandatory ha hatom q.min false) fun needed b hab hb hneeded => ?_
  have hatom := hatom.extends ha hab
  cases q.max with
  | none =>
    refine ensures_bind (ensures_instanceOf hb hatom _) fun body c hbc hc hbody => ?_
    refine ensures_bind (ensures_optional hc (allDrawn_cons.mpr ⟨hbody, allDrawn_nil⟩) q.greedy
      .loop) fun loop d hcd hd hloop => ensures_pure hd ?_
    exact (hneeded.extends hb (hbc.trans hcd)).append (allDrawn_cons.mpr ⟨hloop, allDrawn_nil⟩)
  | some max =>
    refine ensures_bind (ensures_instances hb hatom (max - q.min) _) fun bodies c hbc hc hbodies => ?_
    have hlength : bodies.length = max - q.min := by
      simpa using congrArg List.length hbodies.2
    rw [← hlength] at hbodies
    refine ensures_bind (ensures_nested hc hbodies q.greedy) fun terms d hcd hd hterms =>
      ensures_pure hd ?_
    rw [hlength] at hterms
    exact (hneeded.extends hb (hbc.trans hcd)).append hterms

/-! ## Groups -/

/-- What a pair of parentheses begins, if `next` is the number of the next capture group. -/
def Source.Grouping.opening (next : Nat) : Source.Grouping → Opening
  | .plain => .plain
  | .capture | .named _ => .capture next
  | .look direction negated => .look direction negated

theorem ensures_groupNode {s : Settings} {f : Frame} {g : Source.Grouping} {alternatives : List NodeId}
    {os : List Outline} (ha : a.Ordered) (h : AllDrawn os alternatives a)
    (hopening : f.opening = g.opening f.firstGroup) :
    Ensures (Reader.groupNode s f alternatives hi) a fun found b =>
      Drawn (g.outline f.firstGroup hi os) found.1 b ∧ found.2 = g.quantifiable s.unicode := by
  unfold Reader.groupNode
  rw [hopening]
  have hgroup : ∀ role lo, Ensures (add (.group ⟨alternatives, role, lo, hi⟩)) a
      (Drawn (.group role lo hi os)) := fun role lo => ensures_group ha h
  cases g with
  | plain => exact ensures_bind (hgroup .plain _) fun id b _ hb hid => ensures_pure hb ⟨hid, rfl⟩
  | capture =>
    exact ensures_bind (hgroup (.capture _) _) fun id b _ hb hid => ensures_pure hb ⟨hid, rfl⟩
  | named name =>
    exact ensures_bind (hgroup (.capture _) _) fun id b _ hb hid => ensures_pure hb ⟨hid, rfl⟩
  | look direction negated =>
    refine ensures_bind (hgroup .plain _) fun body b _ hb hbody => ?_
    exact ensures_bind (ensures_look hb hbody) fun id c _ hc hid => ensures_pure hc ⟨hid, rfl⟩

end PatternAutomata.Pattern
