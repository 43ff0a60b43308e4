import PatternAutomata.Proofs.Pattern.Kinds

/-!
# The numbers of capture groups

A capture group gets its number when it is opened, and the captures inside are known when it is
closed. Until then no node has its number. So all nodes with one number, of which quantifiers make
copies, agree on the captures inside.
-/

namespace PatternAutomata

/-- The captures inside a group end before `count`. The captures inside group `m` are those from
`m + 1` to before `ends m`, and no node has one of the numbers that are `waiting`. -/
def NodeKind.Numbered (ends : Nat → Nat) (count : Nat) (waiting : List Nat) (k : NodeKind) : Prop :=
  ∀ g, k = .group g → g.innerEnd ≤ count ∧ ∀ m, g.number? = some m →
    m < count ∧ m ∉ waiting ∧ g.innerStart = m + 1 ∧ g.innerEnd = ends m

namespace NodeKind.Numbered

variable {ends : Nat → Nat} {count m : Nat} {waiting : List Nat} {k : NodeKind}

theorem structural (ends : Nat → Nat) (count : Nat) (waiting : List Nat) :
    NodeKind.Structural (Numbered ends count waiting) count where
  matchFound := nofun
  sequence _ := nofun
  look _ := nofun
  group g hnumber hend := by
    rintro _ ⟨⟩
    exact ⟨Nat.le_of_eq hend, fun m hm => by rw [hnumber] at hm; cases hm⟩
  regroup g alternatives h := by
    rintro _ ⟨⟩
    exact h g rfl

/-- Opening a group: its number is not in use. -/
theorem opened (h : k.Numbered ends count waiting) :
    k.Numbered ends (count + 1) (count :: waiting) := by
  intro g hg
  obtain ⟨hend, hnumber⟩ := h g hg
  refine ⟨Nat.le_succ_of_le hend, fun m hm => ?_⟩
  obtain ⟨hlt, hwaiting, hinner⟩ := hnumber m hm
  exact ⟨Nat.lt_succ_of_lt hlt, List.not_mem_cons_of_ne_of_not_mem (Nat.ne_of_lt hlt) hwaiting, hinner⟩

/-- Closing a group: it is settled which captures are inside. -/
theorem closed (h : k.Numbered ends count (m :: waiting)) (hi : Nat) :
    k.Numbered (Function.update ends m hi) count waiting := by
  intro g hg
  obtain ⟨hend, hnumber⟩ := h g hg
  refine ⟨hend, fun m' hm' => ?_⟩
  obtain ⟨hlt, hwaiting, hstart, hends⟩ := hnumber m' hm'
  obtain ⟨hne, hwaiting⟩ := List.ne_and_not_mem_of_not_mem_cons hwaiting
  exact ⟨hlt, hwaiting, hstart, by rw [Function.update_of_ne hne, hends]⟩

/-- The node of a group that is closed. -/
theorem ofClosed (ends : Nat → Nat) (alternatives : List NodeId) (hlt : m < count)
    (hm : m ∉ waiting) : (NodeKind.group ⟨alternatives, .capture m, m + 1, count⟩).Numbered
      (Function.update ends m count) count waiting := by
  rintro _ ⟨⟩
  refine ⟨Nat.le_refl _, fun m' hm' => ?_⟩
  cases hm'
  exact ⟨hlt, hm, rfl, by rw [Function.update_self]⟩

end NodeKind.Numbered

namespace Pattern

variable {s : Settings}

def Frame.number? (f : Frame) : Option Nat :=
  match f.opening with
  | .capture m => some m
  | _ => none

/-- The numbers of the groups that are open, and that of the whole pattern. -/
def waiting (frames : List Frame) : List Nat := frames.filterMap Frame.number? ++ [0]

namespace Reader

variable {r q : Reader} {ends : Nat → Nat}

structure Numbered (r : Reader) (ends : Nat → Nat) : Prop where
  all : ∀ k ∈ r.arena.kinds, k.Numbered ends r.nextGroup (waiting r.frames)
  nodup : (waiting r.frames).Nodup
  lt : ∀ m ∈ waiting r.frames, m < r.nextGroup

theorem Numbered.endAlternative (hr : r.Numbered ends) (h : r.endAlternative = .ok q) :
    q.Numbered ends := by
  obtain ⟨id, b, hgrow, rfl⟩ := endAlternative_eq_ok h
  have hcarries := Grow.carries_sequence (NodeKind.Numbered.structural ends r.nextGroup
    (waiting r.frames)) r.level.terms.reverse
  exact ⟨hcarries.all hr.all hgrow, hr.nodup, hr.lt⟩

theorem Numbered.endTerm {id : NodeId} {quantifiable : Bool} {firstGroup : Nat}
    (hr : r.Numbered ends) (h : endTerm s id quantifiable firstGroup r = .ok q) :
    q.Numbered ends := by
  cases endTerm_eq_ok h with
  | once hread => exact ⟨hr.all, hr.nodup, hr.lt⟩
  | @quantified cursor quant ids b hread hquantifiable hgrow =>
    have hcarries := carries_quantify (NodeKind.Numbered.structural ends r.nextGroup
      (waiting r.frames)) quant id firstGroup
    exact ⟨hcarries.all hr.all hgrow, hr.nodup, hr.lt⟩

theorem Numbered.openCapture {name : Option String} {cursor : Cursor} (hr : r.Numbered ends)
    (h : openCapture s name cursor r = .ok q) : q.Numbered ends := by
  obtain ⟨-, rfl⟩ := openCapture_eq_ok h
  refine ⟨fun k hk => ?_, ?_, fun m hm => ?_⟩
  · simpa [nextGroup, waiting, Frame.number?] using (hr.all k hk).opened
  · refine List.nodup_cons.mpr ⟨fun hm => ?_, hr.nodup⟩
    exact Nat.lt_irrefl _ (hr.lt _ hm)
  · rw [nextGroup, Array.size_push]
    rcases List.mem_cons.mp hm with rfl | hm
    · exact Nat.lt_succ_self _
    · exact Nat.lt_succ_of_lt (hr.lt m hm)

theorem Numbered.openOther {opening : Opening} {cursor : Cursor} (hr : r.Numbered ends)
    (hopening : ∀ m, opening ≠ .capture m) : (r.openOther opening cursor).Numbered ends := by
  have hwaiting : waiting (r.openOther opening cursor).frames = waiting r.frames := by
    cases opening with
    | capture m => exact absurd rfl (hopening m)
    | _ => rfl
  exact ⟨hwaiting ▸ hr.all, hwaiting ▸ hr.nodup, hwaiting ▸ hr.lt⟩

theorem Numbered.openGroup (hr : r.Numbered ends) (h : OpensGroup s r q) : q.Numbered ends := by
  cases h with
  | other sign hsign hrest hopening => exact hr.openOther hopening
  | named hrest hname h => exact hr.openCapture h
  | unnamed hrest h => exact hr.openCapture h

theorem Numbered.closeGroup (hr : r.Numbered ends) (h : r.closeGroup s = .ok q) :
    ∃ ends', q.Numbered ends' := by
  obtain ⟨r1, f, frames, id, quantifiable, b, h1, hframes, hgrow, h⟩ := closeGroup_eq_ok h
  obtain ⟨hall1, hnodup1, hlt1⟩ := hr.endAlternative h1
  rw [hframes] at hall1 hnodup1 hlt1
  obtain ⟨ends', hall, hnodup, hlt⟩ : ∃ ends', (∀ k ∈ b.kinds,
      k.Numbered ends' r1.nextGroup (waiting frames)) ∧ (waiting frames).Nodup ∧
        ∀ m ∈ waiting frames, m < r1.nextGroup := by
    cases hopening : f.opening with
    | capture m =>
      have hwaiting : waiting (f :: frames) = m :: waiting frames := by
        simp [waiting, Frame.number?, hopening]
      simp only [hwaiting, List.nodup_cons, List.mem_cons, forall_eq_or_imp] at hall1 hnodup1 hlt1
      refine ⟨Function.update ends m r1.nextGroup, ?_, hnodup1.2, hlt1.2⟩
      refine (carries_groupNode (s := s) (NodeKind.Numbered.structural ..) f _ fun m' hm' => ?_).all
        (fun k hk => (hall1 k hk).closed r1.nextGroup) hgrow
      obtain rfl : m = m' := Opening.capture.inj (hopening.symm.trans hm')
      exact .ofClosed ends _ hlt1.1 hnodup1.1
    | _ =>
      have hwaiting : waiting (f :: frames) = waiting frames := by
        simp [waiting, Frame.number?, hopening]
      rw [hwaiting] at hall1 hnodup1 hlt1
      refine ⟨ends, ?_, hnodup1, hlt1⟩
      refine (carries_groupNode (s := s) (NodeKind.Numbered.structural ..) f _ fun m' hm' => ?_).all
        hall1 hgrow
      rw [hopening] at hm'
      cases hm'
  exact ⟨ends', Numbered.endTerm (r := ⟨_, b, r1.names, f.outer, frames⟩) ⟨hall, hnodup, hlt⟩ h⟩

theorem Numbered.step {c : Char} (hr : r.Numbered ends) (h : r.step s c = .ok q) :
    ∃ ends', q.Numbered ends' := by
  cases step_eq_ok h with
  | bar hc h1 =>
    have hr1 := hr.endAlternative h1
    exact ⟨ends, hr1.all, hr1.nodup, hr1.lt⟩
  | openGroup hc hopen => exact ⟨ends, hr.openGroup hopen⟩
  | closeGroup hc hclose => exact hr.closeGroup hclose
  | @atom a cursor id b _ hc hread hgrow hend =>
    have hatom : isAtom a.kind = true := isAtom_atom hread
    have hall := (Grow.carries_add fun g hg => by rw [hg] at hatom; cases hatom).all hr.all hgrow
    exact ⟨ends, Numbered.endTerm (r := ⟨cursor, b, r.names, r.level, r.frames⟩)
      ⟨hall, hr.nodup, hr.lt⟩ hend⟩

theorem Numbered.run (fuel : Nat) (hr : r.Numbered ends) (h : run s fuel r = .ok q) :
    ∃ ends', q.Numbered ends' :=
  run_keeps (P := fun r => ∃ ends, r.Numbered ends) (fun _ ⟨_, hr⟩ h => hr.step h) fuel ⟨ends, hr⟩ h

theorem Numbered.finish {t : Tree} (hr : r.Numbered ends) (h : r.finish = .ok t) :
    ∃ ends', ∀ k ∈ t.kinds, k.Numbered ends' t.groupCount [] := by
  obtain ⟨r1, root, matchFound, b, b', h1, hframes, hroot, hfound, rfl⟩ := finish_eq_ok h
  have hr1 := hr.endAlternative h1
  have hwaiting : waiting r1.frames = [0] := by rw [hframes]; rfl
  have hclosed : ∀ k ∈ b.kinds, k.Numbered (Function.update ends 0 r1.nextGroup) r1.nextGroup [] :=
    (Grow.carries_add (.ofClosed ends _ (hr1.lt 0 (by simp [hwaiting])) List.not_mem_nil)).all
      (fun k hk => (hwaiting ▸ hr1.all k hk : k.Numbered ..).closed r1.nextGroup) hroot
  exact ⟨_, (Grow.carries_add (NodeKind.Numbered.structural ..).matchFound).all hclosed hfound⟩

end Reader

/-- All nodes with the number of a capture group agree on the captures inside it, and these are
captures of the pattern. -/
theorem numbered_parse {pattern : String} {flags : Flags} {budget : Budget}
    {properties : PropertyLookup} {t : Tree}
    (h : parse pattern flags budget properties = .ok t) :
    ∃ ends, ∀ id, (t.kind id).Numbered ends t.groupCount [] := by
  obtain ⟨r, hr, h⟩ := bind_eq_ok.mp h
  have hstart : Reader.Numbered
      { cursor := .ofString pattern, arena := { limit := budget.maxTreeSize } } id :=
    ⟨by simp, by simp [waiting], by simp [waiting, Reader.nextGroup]⟩
  obtain ⟨ends, hr⟩ := hstart.run _ hr
  obtain ⟨ends', hall⟩ := hr.finish h
  refine ⟨ends', fun id => ?_⟩
  rw [Tree.kind, Array.getD_eq_getD_getElem?]
  cases hget : t.kinds[id]? with
  | none => exact (NodeKind.Numbered.structural ..).matchFound
  | some k => exact hall k (Array.mem_of_getElem? hget)

end Pattern

end PatternAutomata
