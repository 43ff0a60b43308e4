import PatternAutomata.Proofs.Backtrack.Outlines
import PatternAutomata.Proofs.Pattern.Desugaring
import PatternAutomata.Proofs.Pattern.Reader

/-!
# What a quantifier matches

A quantifier is built away into copies of its atom. `repeatWays` says what it should match, without
copies: it counts how many iterations must and may still come. What stands for the quantifier has
exactly these ways, in this order (`inTurn_quantify`).

The iterations that must happen come first, and each of them is counted off. A loop and optional groups
that are nested offer the rest: there each iteration takes a character, so both by induction on the text
that is left.
-/

namespace PatternAutomata.Pattern

open PatternAutomata.Tree

/-- Unsets the captures from `lo` to before `hi`. -/
def forget (lo hi : Nat) (s : Spot Captures) : Spot Captures :=
  s.mark Captures.recorder (.reset lo hi)

/-- The ways to match at least `min` and at most `max` iterations, given those of one, the preferred
ones first. An iteration begins with the captures from `lo` to before `hi` unset. One that need not
happen must take a character. This is the repetition of the ECMAScript standard, as long as no more
than `rounds` decisions are needed. -/
def repeatWays (once : Spot Captures → List (Spot Captures)) (lo hi : Nat) (greedy : Bool) :
    Nat → Nat → Option Nat → Spot Captures → List (Spot Captures)
  | 0, _, _, _ => []
  | rounds + 1, min, max, s =>
    if max = some 0 then [s]
    else
      let further := (once (forget lo hi s)).flatMap fun s' =>
        if min = 0 ∧ s'.position = s.position then []
        else repeatWays once lo hi greedy rounds (min - 1) (max.map (· - 1)) s'
      if min ≠ 0 then further else if greedy then further ++ [s] else s :: further

theorem forget_of_le {lo hi : Nat} (h : hi ≤ lo) (s : Spot Captures) : forget lo hi s = s := by
  have hreset : (CaptureOp.reset lo hi).apply s.memory s.position = s.memory := by
    have hnone : ∀ i, (CaptureOp.reset lo hi).touches i = false := fun i => by
      simp only [CaptureOp.touches, Bool.and_eq_false_iff, decide_eq_false_iff_not]
      omega
    rw [CaptureOp.apply]
    exact Array.ext (by simp) fun i _ _ => by simp [hnone]
  exact congrArg (Spot.mk s.position) hreset

theorem flatMap_filter {α β : Type} (l : List α) (p : α → Bool) (f : α → List β) :
    (l.filter p).flatMap f = l.flatMap fun a => if p a then f a else [] := by
  induction l with
  | nil => rfl
  | cons a l ih => by_cases h : p a <;> simp [h, ih]

theorem exists_pair_of_map_eq {α β : Type} {f : α → β} {l : List α} {b c : β}
    (h : l.map f = [b, c]) : ∃ a a', l = [a, a'] ∧ f a = b ∧ f a' = c := by
  obtain ⟨a, l, rfl, ha, hl⟩ := List.map_eq_cons_iff.mp h
  obtain ⟨a', l, rfl, ha', hl⟩ := List.map_eq_cons_iff.mp hl
  rw [List.map_eq_nil_iff.mp hl]
  exact ⟨a, a', rfl, ha, ha'⟩

variable {t : Tree} {x : Subject} {id atom : NodeId} {lo hi : Nat} {greedy : Bool}

/-! ## Groups -/

/-- What one iteration of a quantifier does. -/
theorem iteration_of_isQuantifier {g : Group} (hg : g.isQuantifier = true)
    (next : NodeId → Spot Captures → List (Spot Captures)) (first : NodeId) (others : List NodeId)
    (s : Spot Captures) :
    iteration t Captures.recorder g next first others s =
      (next first (forget g.innerStart g.innerEnd s)).flatMap fun s' =>
        if t.canSkip g = true ∧ s'.position = s.position then [] else inTurn next others s' := by
  have hnumber := Group.number?_of_isQuantifier hg
  have henter : g.enter Captures.recorder s = forget g.innerStart g.innerEnd s := by
    rw [Group.enter, hnumber, if_pos hg]
    rfl
  have hexit : g.exit Captures.recorder = id := by
    funext s
    rw [Group.exit, hnumber]
    rfl
  rw [iteration, henter, hexit, flatMap_filter]
  refine List.flatMap_congr fun s' _ => ?_
  rw [List.map_id]
  by_cases hskip : t.canSkip g = true ∧ s'.position = s.position
  · rw [if_pos hskip, if_neg (by simp [hskip])]
  · rw [if_neg hskip, if_pos (by
      rwa [Bool.not_eq_true', ← Bool.not_eq_true, Bool.and_eq_true, beq_iff_eq])]

/-- After an iteration that took a character less text is left. -/
theorem further_congr {s : Spot Captures} {f f' : Spot Captures → List (Spot Captures)}
    (h : ∀ s', x.text.length - s'.position < x.text.length - s.position → f s' = f' s') :
    ((t.ways x Captures.recorder atom (forget lo hi s)).flatMap fun s' =>
        if s'.position = s.position then [] else f s') =
      (t.ways x Captures.recorder atom (forget lo hi s)).flatMap fun s' =>
        if s'.position = s.position then [] else f' s' := by
  refine List.flatMap_congr fun s' hs' => ?_
  by_cases hpos : s'.position = s.position
  · rw [if_pos hpos, if_pos hpos]
  · have hstart : Ahead x s (forget lo hi s) := .of_eq rfl
    have hahead := hstart.trans (ahead_ways hs')
    rw [if_neg hpos, if_neg hpos,
      h s' (hahead.remaining_lt (Nat.lt_of_le_of_ne hahead.le (Ne.symm hpos)))]

/-- When no more iterations must happen. -/
theorem repeatWays_zero {once : Spot Captures → List (Spot Captures)} {rounds : Nat}
    {max : Option Nat} (hmax : max ≠ some 0) (s : Spot Captures) :
    repeatWays once lo hi greedy (rounds + 1) 0 max s =
      let further := (once (forget lo hi s)).flatMap fun s' =>
        if s'.position = s.position then []
        else repeatWays once lo hi greedy rounds 0 (max.map (· - 1)) s'
      if greedy then further ++ [s] else s :: further := by
  simp [repeatWays, hmax]

section Ways

variable (ht : t.WellFormed)
include ht

/-- All nodes with the outline of the atom match as the atom does. -/
theorem ways_eq_atom (ho : t.outlineAt id = t.outlineAt atom) :
    t.ways x Captures.recorder id = t.ways x Captures.recorder atom :=
  ht.ways_eq_of_outlineAt_eq (fun _ _ => rfl) ho

/-- The nodes of a group that stands for terms or for nothing. -/
theorem exists_of_optional {role : GroupRole} {o : Outline} {os : List Outline}
    (ho : t.outlineAt id = Quantifier.optionalOutline greedy role lo hi (o :: os)) :
    ∃ body empty first others,
      t.kind id = .group ⟨if greedy then [body, empty] else [empty, body], role, lo, hi⟩ ∧
      t.terms body = first :: others ∧ t.terms empty = [] ∧
      t.outlineAt first = o ∧ others.map t.outlineAt = os := by
  obtain ⟨alternatives, hk, halternatives⟩ := ht.kind_of_group ho
  obtain ⟨body, empty, hbody, hempty, rfl⟩ : ∃ body empty,
      t.outlineAt body = .sequence (o :: os) ∧ t.outlineAt empty = .sequence [] ∧
      alternatives = if greedy then [body, empty] else [empty, body] := by
    cases greedy with
    | true =>
      obtain ⟨body, empty, halts, hbody, hempty⟩ := exists_pair_of_map_eq halternatives
      exact ⟨body, empty, hbody, hempty, halts⟩
    | false =>
      obtain ⟨empty, body, halts, hempty, hbody⟩ := exists_pair_of_map_eq halternatives
      exact ⟨body, empty, hbody, hempty, halts⟩
  have hterms := ht.map_terms body
  have hnone := ht.map_terms empty
  rw [hbody] at hterms
  rw [hempty, Outline.terms, List.map_eq_nil_iff] at hnone
  obtain ⟨first, others, hterms, hfirst, hothers⟩ := List.map_eq_cons_iff.mp hterms
  exact ⟨body, empty, first, others, hk, hterms, hnone, hfirst, hothers⟩

/-- What comes after an iteration in the same group: the terms that follow it there, and then the
group once more if it is a loop. -/
def afterwards (t : Tree) (x : Subject) (role : GroupRole) (id : NodeId) (others : List NodeId)
    (s : Spot Captures) : List (Spot Captures) :=
  (inTurn (t.ways x Captures.recorder) others s).flatMap
    (if role = .loop then t.ways x Captures.recorder id else fun s' => [s'])

/-- An iteration that need not happen. -/
theorem ways_optional {role : GroupRole} {os : List Outline}
    (hrole : role = .loop ∨ role = .unrolled)
    (ho : t.outlineAt id = Quantifier.optionalOutline greedy role lo hi (t.outlineAt atom :: os)) :
    ∃ others, others.map t.outlineAt = os ∧ ∀ s,
      let further := (t.ways x Captures.recorder atom (forget lo hi s)).flatMap fun s' =>
        if s'.position = s.position then [] else afterwards t x role id others s'
      t.ways x Captures.recorder id s = if greedy then further ++ [s] else s :: further := by
  obtain ⟨body, empty, first, others, hk, hbody, hempty, hfirst, hothers⟩ := exists_of_optional ht ho
  refine ⟨others, hothers, fun s => ?_⟩
  generalize hg : (⟨if greedy then [body, empty] else [empty, body], role, lo, hi⟩ : Group) = g at hk
  have hquantifier : g.isQuantifier = true := by
    subst hg
    rcases hrole with rfl | rfl <;> rfl
  have hskip : t.canSkip g = true := by
    rw [canSkip, hquantifier, Bool.true_and, List.any_eq_true]
    exact ⟨empty, by subst hg; cases greedy <;> simp, by rw [hempty]; rfl⟩
  have hbranch : (iteration t Captures.recorder g (t.ways x Captures.recorder) first others s).flatMap
      (t.again x Captures.recorder id g) =
      (t.ways x Captures.recorder atom (forget lo hi s)).flatMap fun s' =>
        if s'.position = s.position then [] else afterwards t x role id others s' := by
    have hagain : t.again x Captures.recorder id g =
        if role = .loop then t.ways x Captures.recorder id else fun s' => [s'] := by
      funext s
      subst hg
      rcases hrole with rfl | rfl <;> rfl
    rw [iteration_of_isQuantifier hquantifier, ways_eq_atom ht hfirst, hagain, List.flatMap_assoc]
    subst hg
    refine List.flatMap_congr fun s' _ => ?_
    by_cases hpos : s'.position = s.position
    · simp only [hskip, hpos, and_self, if_true, List.flatMap_nil]
    · simp only [hpos, and_false, if_false, afterwards]
  have halternatives : g.alternatives = if greedy then [body, empty] else [empty, body] := by rw [← hg]
  rw [ways_group ht hk, ← hbranch, halternatives]
  cases greedy with
  | true => simp [hbody, hempty, hquantifier]
  | false => simp [hbody, hempty, hquantifier]

/-! ## Iterations that may happen -/

/-- A loop. -/
theorem ways_loop
    (ho : t.outlineAt id = Quantifier.optionalOutline greedy .loop lo hi [t.outlineAt atom])
    {rounds : Nat} {s : Spot Captures} (hrounds : x.text.length - s.position < rounds) :
    t.ways x Captures.recorder id s =
      repeatWays (t.ways x Captures.recorder atom) lo hi greedy rounds 0 none s := by
  obtain ⟨others, hothers, hways⟩ := ways_optional (x := x) ht (.inl rfl) ho
  obtain rfl := List.map_eq_nil_iff.mp hothers
  induction rounds generalizing s with
  | zero => exact absurd hrounds (Nat.not_lt_zero _)
  | succ rounds ih =>
    have hagain : ∀ s', x.text.length - s'.position < x.text.length - s.position →
        afterwards t x .loop id [] s' =
          repeatWays (t.ways x Captures.recorder atom) lo hi greedy rounds 0 none s' := by
      intro s' hlt
      rw [← ih (by omega)]
      simp [afterwards, inTurn]
    rw [hways, repeatWays_zero (by simp), further_congr hagain]
    rfl

/-- Optional iterations, each inside the one before it. -/
theorem inTurn_nested {n : Nat} {ids : List NodeId}
    (ho : ids.map t.outlineAt = Quantifier.nestedOutline greedy lo hi (t.outlineAt atom) n)
    {rounds : Nat} {s : Spot Captures} (hrounds : x.text.length - s.position < rounds) :
    inTurn (t.ways x Captures.recorder) ids s =
      repeatWays (t.ways x Captures.recorder atom) lo hi greedy rounds 0 (some n) s := by
  induction n generalizing ids rounds s with
  | zero =>
    obtain rfl := List.map_eq_nil_iff.mp ho
    obtain ⟨rounds, rfl⟩ := Nat.exists_eq_add_one_of_ne_zero (Nat.ne_zero_of_lt hrounds)
    simp [inTurn, repeatWays]
  | succ n ih =>
    obtain ⟨rounds, rfl⟩ := Nat.exists_eq_add_one_of_ne_zero (Nat.ne_zero_of_lt hrounds)
    obtain ⟨id, ids, rfl, hid, hids⟩ := List.map_eq_cons_iff.mp ho
    obtain rfl := List.map_eq_nil_iff.mp hids
    obtain ⟨others, hothers, hways⟩ := ways_optional (x := x) ht (.inr rfl) hid
    have hinner : ∀ s', x.text.length - s'.position < x.text.length - s.position →
        afterwards t x .unrolled id others s' =
          repeatWays (t.ways x Captures.recorder atom) lo hi greedy rounds 0 (some n) s' := by
      intro s' hlt
      rw [← ih hothers (by omega)]
      simp [afterwards]
    have hone : inTurn (t.ways x Captures.recorder) [id] s = t.ways x Captures.recorder id s :=
      List.flatMap_singleton' _
    rw [hone, hways, repeatWays_zero (by simp), further_congr hinner]
    rfl

/-! ## Iterations that must happen -/

/-- An iteration that must happen matches as the atom does, after it has unset its captures. -/
theorem ways_iteration
    (ho : t.outlineAt id = Quantifier.iterationOutline lo hi (t.outlineAt atom)) (s : Spot Captures) :
    t.ways x Captures.recorder id s = t.ways x Captures.recorder atom (forget lo hi s) := by
  unfold Quantifier.iterationOutline at ho
  by_cases hlt : lo < hi
  · rw [if_pos hlt] at ho
    obtain ⟨alternatives, hk, halternatives⟩ := ht.kind_of_group ho
    obtain ⟨body, alternatives, rfl, hbody, hnil⟩ := List.map_eq_cons_iff.mp halternatives
    obtain rfl := List.map_eq_nil_iff.mp hnil
    have hterms := ht.map_terms body
    rw [hbody] at hterms
    obtain ⟨first, others, hterms, hfirst, hothers⟩ := List.map_eq_cons_iff.mp hterms
    obtain rfl := List.map_eq_nil_iff.mp hothers
    have hskip : t.canSkip ⟨[body], .unrolled, lo, hi⟩ = false := by simp [canSkip, hterms]
    rw [ways_group ht hk, List.flatMap_singleton]
    simp only [hterms]
    have hagain : t.again x Captures.recorder id ⟨[body], .unrolled, lo, hi⟩ = fun s' => [s'] := rfl
    rw [iteration_of_isQuantifier rfl, ways_eq_atom ht hfirst, hagain]
    simp [hskip, inTurn]
  · rw [if_neg hlt] at ho
    rw [ways_eq_atom ht ho, forget_of_le (Nat.le_of_not_lt hlt)]

theorem inTurn_mandatory {n : Nat} {ids more : List NodeId}
    (ho : ids.map t.outlineAt =
      List.replicate n (Quantifier.iterationOutline lo hi (t.outlineAt atom)))
    {rounds : Nat} {max : Option Nat} (hmax : ∀ m ∈ max, n ≤ m) {s : Spot Captures}
    (hmore : ∀ s', x.text.length - s'.position ≤ x.text.length - s.position →
      inTurn (t.ways x Captures.recorder) more s' =
        repeatWays (t.ways x Captures.recorder atom) lo hi greedy rounds 0 (max.map (· - n)) s') :
    inTurn (t.ways x Captures.recorder) (ids ++ more) s =
      repeatWays (t.ways x Captures.recorder atom) lo hi greedy (n + rounds) n max s := by
  induction n generalizing ids max s with
  | zero =>
    obtain rfl := List.map_eq_nil_iff.mp ho
    simpa using hmore s (Nat.le_refl _)
  | succ n ih =>
    obtain ⟨id, ids, rfl, hid, hids⟩ := List.map_eq_cons_iff.mp ho
    have hne : max ≠ some 0 := fun h => absurd (hmax 0 h) (Nat.not_succ_le_zero n)
    rw [List.cons_append, inTurn, ways_iteration ht hid, Nat.add_right_comm, repeatWays, if_neg hne]
    simp only [ne_eq, Nat.add_one_ne_zero, not_false_eq_true, false_and, if_true, if_false,
      Nat.add_sub_cancel]
    refine List.flatMap_congr fun s' hs' => ?_
    have hstart : Ahead x s (forget lo hi s) := .of_eq rfl
    have hle := (hstart.trans (ahead_ways hs')).le
    refine ih hids (fun m hm => ?_) fun s'' hs'' => ?_
    · obtain ⟨m', hm', rfl⟩ := Option.map_eq_some_iff.mp hm
      have := hmax m' hm'
      omega
    · rw [hmore s'' (by omega), Option.map_map]
      congr 2
      funext m
      simp only [Function.comp_apply]
      omega

end Ways

/-- The terms that stand for a quantified atom have the ways of a repetition of the atom, in the same
order and with the same captures. -/
theorem inTurn_quantify {a b : Arena} {terms : List NodeId} {q : Quantifier} (ha : a.Ordered)
    (hatom : atom < a.kinds.size) (hq : ∀ max ∈ q.max, q.min ≤ max)
    (h : (quantify q atom lo hi).run a = .ok (terms, b)) (ht : t.WellFormed)
    (hb : b.Extends t.arena) (x : Subject) (s : Spot Captures) {rounds : Nat}
    (hrounds : q.min + (x.text.length - s.position) < rounds) :
    inTurn (t.ways x Captures.recorder) terms s =
      repeatWays (t.ways x Captures.recorder atom) lo hi q.greedy rounds q.min q.max s := by
  obtain ⟨hab, hordered, hdrawn⟩ := ensures_quantify ha ⟨hatom, rfl⟩ q terms b h
  have houtlines : terms.map t.outlineAt = q.outlines lo hi (t.outlineAt atom) := by
    have hatom' : t.outlineAt atom = a.outline atom := Arena.outline_extends ha (hab.trans hb) hatom
    rw [hatom']
    exact (hdrawn.extends hordered hb).2
  obtain ⟨needed, more, rfl, hneeded, hmore⟩ := List.map_eq_append_iff.mp houtlines
  obtain ⟨rounds, rfl⟩ := Nat.exists_eq_add_of_lt hrounds
  rw [Nat.add_assoc, Nat.add_assoc]
  refine inTurn_mandatory ht hneeded hq fun s' hs' => ?_
  cases hmax : q.max with
  | none =>
    rw [hmax] at hmore
    obtain ⟨id, more, rfl, hid, hnil⟩ := List.map_eq_cons_iff.mp hmore
    obtain rfl := List.map_eq_nil_iff.mp hnil
    have hone : inTurn (t.ways x Captures.recorder) [id] s' = t.ways x Captures.recorder id s' :=
      List.flatMap_singleton' _
    rw [hone]
    exact ways_loop ht hid (by omega)
  | some max =>
    rw [hmax] at hmore
    exact inTurn_nested ht hmore (by omega)

set_option maxRecDepth 100000 in
/-- One or two times `(a)`, on the text `aa`: the second iteration forgets what the first one
captured. -/
theorem inTurn_quantify_captured :
    let atom : Array NodeKind :=
      #[.charClass (.single 97), .sequence [0], .group ⟨[1], .capture 1, 2, 2⟩]
    let a : Arena := { limit := 20, kinds := atom }
    let b : Arena := { limit := 20, kinds := atom ++ #[.sequence [2], .group ⟨[3], .unrolled, 1, 2⟩,
      .charClass (.single 97), .sequence [5], .group ⟨[6], .capture 1, 2, 2⟩,
      .sequence [7], .sequence [], .group ⟨[8, 9], .unrolled, 1, 2⟩] }
    let x : Subject := ⟨false, ['a', 'a']⟩
    let s : Spot Captures := ⟨0, #[none, none, none, none]⟩
    a.Ordered ∧ 2 < a.kinds.size ∧
      (quantify ⟨1, some 2, true⟩ 2 1 2).run a = .ok ([4, 10], b) ∧
      ∃ t : Tree, t.WellFormed ∧ b.Extends t.arena ∧
        inTurn (t.ways x Captures.recorder) [4, 10] s =
          repeatWays (t.ways x Captures.recorder 2) 1 2 true 4 1 (some 2) s ∧
        (inTurn (t.ways x Captures.recorder) [4, 10] s).map (fun s => (s.position, s.memory)) =
          [(2, #[none, none, some 1, some 2]), (1, #[none, none, some 0, some 1])] := by
  intro atom a b x s
  have hrun : (quantify ⟨1, some 2, true⟩ 2 1 2).run a = .ok ([4, 10], b) := rfl
  have ha : a.Ordered := fun id => match id with
    | 0 | 1 | 2 => by decide
    | n + 3 => nofun
  obtain ⟨t, ht⟩ := exists_ok (x := parse "(a)\x7b1,2\x7d" {} {} Property.standard) (by decide +kernel)
  have hb : b.Extends t.arena := by
    obtain ⟨hsize, hkinds⟩ := of_toOption (P := fun t => b.kinds.size ≤ t.kinds.size ∧
      ∀ id < b.kinds.size, t.arena.kind id = b.kind id) (by decide +kernel) ht
    exact ⟨hsize, hkinds⟩
  have hways : inTurn (t.ways x Captures.recorder) [4, 10] s =
      repeatWays (t.ways x Captures.recorder 2) 1 2 true 4 1 (some 2) s :=
    inTurn_quantify ha (Nat.lt_succ_self 2) (by simp) hrun (wellFormed_parse ht) hb x s
      (Nat.lt_succ_self 3)
  have hvalue := of_toOption (P := fun t => (repeatWays (t.ways x Captures.recorder 2) 1 2 true 4 1
    (some 2) s).map (fun s => (s.position, s.memory)) =
      [(2, #[none, none, some 1, some 2]), (1, #[none, none, some 0, some 1])]) (by decide +kernel) ht
  exact ⟨ha, Nat.lt_succ_self 2, hrun, t, wellFormed_parse ht, hb, hways, hways ▸ hvalue⟩

end PatternAutomata.Pattern
