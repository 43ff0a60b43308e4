import PatternAutomata.Proofs.Backtrack.Memory

/-!
# What comes after a node

A match can be picked up in the middle: after a node has matched come the terms after it, then what
comes after the group around it, up to the end of the pattern or of the look-around that the node
stands in. An iteration that is left at the position where it was entered has taken nothing, so it
has to be known which of the groups around the node were entered there.
-/

namespace PatternAutomata.Tree

variable {σ : Type}

/-- The nodes that a match can go through: the pattern, bodies of look-arounds, and terms. -/
inductive Standing (t : Tree) : NodeId → Prop
  | root : Standing t t.root
  | body {id : NodeId} {l : LookAround} (h : Standing t id) (hl : t.kind id = .look l) :
    Standing t l.body
  | term {id a c : NodeId} {g : Group} (k : Nat) (h : Standing t id) (hg : t.kind id = .group g)
    (ha : a ∈ g.alternatives) (hc : (t.terms a)[k]? = some c) : Standing t c

section Definitions

variable (t : Tree) (x : Subject) (r : Recorder σ)

/-- The ways to go on after the node `id` has matched. The groups that were entered at `here` are
those that `entered` says. -/
def goOn (entered : NodeId → Bool) (here : Nat) (id : NodeId) (s : Spot σ) : List (Spot σ) :=
  match t.parent id with
  | none => [s]
  | some parent =>
    match t.kind parent, t.parent parent with
    | .sequence terms, some group =>
      if id < group ∧ group < t.size then
        match t.kind group with
        | .group g =>
          if (t.place id).index = 0 ∧ t.canSkip g ∧ entered group ∧ s.position = here then []
          else (inTurn (t.ways x r) (terms.drop ((t.place id).index + 1)) s).flatMap fun s' =>
            (t.again x r group g (g.exit r s')).flatMap (goOn entered here group)
        | _ => []
      else []
    | .look _, _ => [s]
    | _, _ => []
termination_by t.size - id
decreasing_by
  rename_i h _
  exact Nat.sub_lt_sub_left (Nat.lt_trans h.1 h.2) h.1

/-- The ways to go on after an alternative of the group has matched. -/
def finish (entered : NodeId → Bool) (here : Nat) (id : NodeId) (g : Group) (s : Spot σ) :
    List (Spot σ) :=
  (t.again x r id g (g.exit r s)).flatMap (t.goOn x r entered here id)

end Definitions

variable {t : Tree} {x : Subject} {r : Recorder σ} {id a c : NodeId} {g : Group} {s : Spot σ}
  {entered entered' : NodeId → Bool} {here : Nat}

theorem Standing.isTerm (h : t.WellFormed) (hid : t.Standing id) : (t.kind id).isTerm = true := by
  cases hid with
  | root =>
    obtain ⟨g, hg⟩ := h.root_group
    rw [hg]
    rfl
  | @body id l _ hl =>
    obtain ⟨⟨g, hg, -⟩, -⟩ := h.shaped_of_kind hl
    rw [hg]
    rfl
  | term k _ hg ha hc => exact h.isTerm_of_term hc

theorem Standing.inPattern (hid : t.Standing id) : t.InPattern id := by
  induction hid with
  | root => exact .root
  | body _ hl ih => exact .child ih (body_mem_children hl)
  | term k _ hg ha hc ih =>
    exact .child (.child ih (mem_children_of_alternative hg ha)) (mem_children_of_term hc)

section GoOn

variable (h : t.WellFormed)
include h

theorem goOn_root : t.goOn x r entered here t.root s = [s] := by
  rw [goOn, h.root_parent]

theorem goOn_body {l : LookAround} (hl : t.kind id = .look l) :
    t.goOn x r entered here l.body s = [s] := by
  rw [goOn, h.parent_body hl]
  simp only [hl]

theorem goOn_term {k : Nat} (hg : t.kind id = .group g)
    (ha : a ∈ g.alternatives) (hc : (t.terms a)[k]? = some c) :
    t.goOn x r entered here c s =
      if k = 0 ∧ t.canSkip g ∧ entered id ∧ s.position = here then []
      else (inTurn (t.ways x r) ((t.terms a).drop (k + 1)) s).flatMap
        (t.finish x r entered here id g) := by
  have hgroup := h.parent_alternative hg ha
  have hlt : c < id ∧ id < t.size := ⟨h.term_lt hg ha (List.mem_of_getElem? hc),
    lt_size_of_child (c := a) (mem_children_of_alternative hg ha)⟩
  rw [goOn, h.parent_of_term hc]
  simp only [kind_of_getElem? hc, hgroup, hg, if_pos hlt, h.index_term a k c hc]
  rfl

end GoOn

/-- Only the groups around a node matter. -/
theorem goOn_congr (hentered : ∀ group, id < group → entered group = entered' group) (s : Spot σ) :
    t.goOn x r entered here id s = t.goOn x r entered' here id s := by
  induction hn : t.size - id using Nat.strongRecOn generalizing id s with
  | ind n ih =>
    rw [goOn, goOn]
    split
    · rfl
    · split
      · split
        · rename_i hlt
          have hrec : t.goOn x r entered here _ = t.goOn x r entered' here _ := funext fun s =>
            ih _ (hn ▸ Nat.sub_lt_sub_left (Nat.lt_trans hlt.1 hlt.2) hlt.1)
              (fun group hgroup => hentered group (Nat.lt_trans hlt.1 hgroup)) s rfl
          simp only [hentered _ hlt.1, hrec]
        · rfl
      · rfl
      · rfl

theorem ahead_again {s' : Spot σ} (hs : s' ∈ t.again x r id g s) : Ahead x s s' := by
  unfold again at hs
  split at hs
  · exact ahead_ways hs
  · obtain rfl := List.mem_singleton.mp hs
    exact .of_eq rfl

/-- Once a character has been taken, it does not matter any more which groups were entered. -/
theorem goOn_of_lt (here' : Nat) (hlt : here < s.position) :
    t.goOn x r entered here id s = t.goOn x r (fun _ => false) here' id s := by
  induction hn : t.size - id using Nat.strongRecOn generalizing id s with
  | ind n ih =>
    rw [goOn, goOn]
    split
    · rfl
    · split
      · split
        · rename_i hgroup
          split
          · rw [if_neg (fun h => absurd h.2.2.2 (Nat.ne_of_gt hlt)), if_neg (by simp)]
            refine List.flatMap_congr fun s1 h1 => List.flatMap_congr fun s2 h2 => ?_
            refine ih _ (hn ▸ Nat.sub_lt_sub_left (Nat.lt_trans hgroup.1 hgroup.2) hgroup.1) ?_ rfl
            have hturn := ahead_inTurn (fun _ _ _ _ => ahead_ways) h1
            have hagain : Ahead x s1 s2 := Ahead.trans (.of_eq position_exit) (ahead_again h2)
            exact Nat.lt_of_lt_of_le hlt (hturn.trans hagain).le
          · rfl
        · rfl
      · rfl
      · rfl

/-! ## What is remembered -/

section Alike

variable {τ : Type} {q : Recorder τ} {R : σ → τ → Prop} {first : Nat}

theorem alike_again (h : t.WellFormed) (hk : Keeps t x r q R (fun _ => True) first) :
    Alike R first (t.again x r · g) (t.again x q · g) id := by
  intro s s' hs hfirst
  unfold again
  split
  · exact alike_ways h hk trivial s s' hs hfirst
  · exact .cons ⟨hs, hfirst⟩ .nil

/-- Recorders that keep a relation between their memories go on alike. -/
theorem alike_goOn (h : t.WellFormed) (hk : Keeps t x r q R (fun _ => True) first) :
    Alike R first (t.goOn x r entered here) (t.goOn x q entered here) id := by
  intro s s' hs hfirst
  induction hn : t.size - id using Nat.strongRecOn generalizing id s s' with
  | ind n ih =>
    rw [goOn, goOn]
    split
    · exact .cons ⟨hs, hfirst⟩ .nil
    · split
      · split
        · rename_i hgroup
          split
          · rename_i g hg
            rw [hs.position_eq]
            split
            · exact .nil
            · refine List.rel_flatMap (related_inTurn (fun c _ => alike_ways h hk trivial) hs hfirst)
                fun a b hab => ?_
              have hexit := related_exit hk trivial hg hab.1 hab.2
              refine List.rel_flatMap (alike_again h hk _ _ hexit (by simpa using hab.2))
                fun a b hab => ?_
              exact ih _ (hn ▸ Nat.sub_lt_sub_left (Nat.lt_trans hgroup.1 hgroup.2) hgroup.1) _ _
                hab.1 hab.2 rfl
          · exact .nil
        · exact .nil
      · exact .cons ⟨hs, hfirst⟩ .nil
      · exact .nil

end Alike

end PatternAutomata.Tree
