import PatternAutomata.Graph.LowLink
import PatternAutomata.Proofs.Graph
import Mathlib.Data.List.Basic

/-!
# One search finds the components

On the stack every vertex leads down to one that is being visited, and what is being visited leads up to
everything above it. So what is on the stack above a vertex that is left makes a component with it, unless
one of them leads further down; and the least number noted tells whether this is so.
-/

namespace PatternAutomata.Graph

/-- Edges lead from one vertex to the other. -/
abbrev Leads (g : Graph) : Nat → Nat → Prop := Relation.ReflTransGen fun a b => b ∈ g.next a

namespace LowLink

/-- The number of a vertex that was met. -/
def number (s : LowLink) (v : Nat) : Nat := (s.index.getD v none).getD 0

def lowOf (s : LowLink) (v : Nat) : Nat := s.low.getD v 0

/-- The vertices being visited, the innermost first. -/
def visiting (s : LowLink) : List Nat := s.frames.map (·.1)

/-! ## What holds all the time -/

structure WellFormed (g : Graph) (s : LowLink) : Prop where
  size_index : s.index.size = g.size
  size_low : s.low.size = g.size
  size_onStack : s.onStack.size = g.size
  onStack_iff : ∀ v, s.onStack.getD v false = true ↔ v ∈ s.stack
  met_iff : ∀ v, (s.index.getD v none).isSome ↔ v ∈ s.stack ∨ v ∈ s.components.flatten
  disjoint : ∀ v ∈ s.stack, v ∉ s.components.flatten
  descending : s.stack.Pairwise fun v w => s.number w < s.number v
  number_lt : ∀ v ∈ s.stack, s.number v < s.nextIndex
  visiting_mem : ∀ v ∈ s.visiting, v ∈ s.stack
  visiting_descending : s.visiting.Pairwise fun v w => s.number w < s.number v
  mem_next : ∀ frame ∈ s.frames, ∀ w ∈ frame.2, w ∈ g.next frame.1

/-- What is known about the vertices on the stack. -/
structure Known (g : Graph) (s : LowLink) : Prop where
  low_le : ∀ v ∈ s.visiting, s.lowOf v ≤ s.number v
  low_reached : ∀ v ∈ s.visiting, ∃ w ∈ s.stack, s.number w = s.lowOf v ∧ Leads g v w
  up : ∀ v ∈ s.visiting, ∀ x ∈ s.stack, s.number v ≤ s.number x → Leads g v x
  down : ∀ x ∈ s.stack, ∃ v ∈ s.visiting, s.number v ≤ s.number x ∧ Leads g x v
  /-- An edge is still to be followed, or leads to a component or to the stack. Then one of the vertices
  being visited from there on has noted it. -/
  noted : ∀ x ∈ s.stack, ∀ y ∈ g.next x, (∃ ws, (x, ws) ∈ s.frames ∧ y ∈ ws) ∨
    y ∈ s.components.flatten ∨ y ∈ s.stack ∧ ∀ v ∈ s.visiting, s.number v ≤ s.number x →
      ∃ u ∈ s.visiting, s.number v ≤ s.number u ∧ s.lowOf u ≤ s.number y

/-- What was found are components, and nothing leads out of them all. -/
structure Complete (g : Graph) (s : LowLink) : Prop where
  closed : ∀ x ∈ s.components.flatten, ∀ y ∈ g.next x, y ∈ s.components.flatten
  ne_nil : ∀ c ∈ s.components, c ≠ []
  sorted : ∀ c ∈ s.components, c.Pairwise (· < ·)
  component : ∀ c ∈ s.components, ∀ v ∈ c, ∀ w, w ∈ c ↔ Leads g v w ∧ Leads g w v
  nodup : s.components.flatten.Nodup

variable {g : Graph} {s : LowLink} {v w : Nat} {ws : List Nat} {frames : List (Nat × List Nat)}

theorem visiting_eq (hframes : s.frames = (v, ws) :: frames) :
    s.visiting = v :: frames.map (·.1) := by
  rw [visiting, hframes]
  rfl

theorem Complete.congr {s' : LowLink} (h : Complete g s) (heq : s'.components = s.components) :
    Complete g s' where
  closed := heq ▸ h.closed
  ne_nil := heq ▸ h.ne_nil
  sorted := heq ▸ h.sorted
  component := heq ▸ h.component
  nodup := heq ▸ h.nodup

theorem Complete.leads (h : Complete g s) (hv : v ∈ s.components.flatten) (hvw : Leads g v w) :
    w ∈ s.components.flatten := by
  induction hvw with
  | refl => exact hv
  | tail _ hw ih => exact h.closed _ ih _ hw

/-! ## Following an edge -/

section Follow

variable {low : Array Nat}

/-- An edge to a vertex that was met is followed. -/
theorem WellFormed.follow (h : WellFormed g s) (hframes : s.frames = (v, w :: ws) :: frames)
    (hlow : low.size = g.size) : WellFormed g { s with frames := (v, ws) :: frames, low } where
  size_index := h.size_index
  size_low := hlow
  size_onStack := h.size_onStack
  onStack_iff := h.onStack_iff
  met_iff := h.met_iff
  disjoint := h.disjoint
  descending := h.descending
  number_lt := h.number_lt
  visiting_mem := by
    have hmem := h.visiting_mem
    rw [visiting_eq hframes] at hmem
    exact hmem
  visiting_descending := by
    have hdescending := h.visiting_descending
    rw [visiting_eq hframes] at hdescending
    exact hdescending
  mem_next frame hframe u hu := by
    rcases List.mem_cons.mp hframe with rfl | hframe
    · exact h.mem_next (v, w :: ws) (by simp [hframes]) u (List.mem_cons_of_mem _ hu)
    · exact h.mem_next frame (by simp [hframes, hframe]) u hu

theorem Known.follow (h : Known g s) (hwf : WellFormed g s)
    (hframes : s.frames = (v, w :: ws) :: frames)
    (hsame : ∀ u, u ≠ v → low.getD u 0 = s.lowOf u) (hle : low.getD v 0 ≤ s.lowOf v)
    (hlow : low.getD v 0 = s.lowOf v ∨ w ∈ s.stack ∧ low.getD v 0 = s.number w)
    (hw : w ∈ s.components.flatten ∨ w ∈ s.stack ∧ low.getD v 0 ≤ s.number w) :
    Known g { s with frames := (v, ws) :: frames, low } := by
  have hvisiting := visiting_eq hframes
  have hmem : ∀ u, u ∈ ({ s with frames := (v, ws) :: frames, low } : LowLink).visiting ↔
      u ∈ s.visiting := fun u => by rw [hvisiting]; rfl
  have hlowLe : ∀ u, low.getD u 0 ≤ s.lowOf u := fun u => by
    by_cases hu : u = v
    · exact hu ▸ hle
    · exact Nat.le_of_eq (hsame u hu)
  have hedge : w ∈ g.next v := hwf.mem_next (v, w :: ws) (by simp [hframes]) w (.head _)
  constructor
  case low_le => exact fun u hu => Nat.le_trans (hlowLe u) (h.low_le u ((hmem u).mp hu))
  case low_reached =>
    intro u hu
    by_cases huv : u = v
    · subst huv
      rcases hlow with hlow | ⟨hw, hlow⟩
      · obtain ⟨z, hz, hnumber, hleads⟩ := h.low_reached u ((hmem u).mp hu)
        exact ⟨z, hz, hnumber.trans hlow.symm, hleads⟩
      · exact ⟨w, hw, hlow.symm, .single hedge⟩
    · obtain ⟨z, hz, hnumber, hleads⟩ := h.low_reached u ((hmem u).mp hu)
      exact ⟨z, hz, hnumber.trans (hsame u huv).symm, hleads⟩
  case up => exact fun u hu => h.up u ((hmem u).mp hu)
  case down =>
    intro x hx
    obtain ⟨u, hu, hdown⟩ := h.down x hx
    exact ⟨u, (hmem u).mpr hu, hdown⟩
  case noted =>
    intro x hx y hy
    rcases h.noted x hx y hy with ⟨ws', hframe, hmemWs⟩ | hfound | ⟨hyStack, hnoted⟩
    · rw [hframes] at hframe
      rcases List.mem_cons.mp hframe with heq | hframe
      · obtain ⟨rfl, rfl⟩ := Prod.mk.inj heq
        rcases List.mem_cons.mp hmemWs with rfl | hmemWs
        · refine .inr (hw.imp_right fun ⟨hyStack, hnote⟩ => ⟨hyStack, fun u _ hu => ?_⟩)
          exact ⟨x, by rw [hmem, hvisiting]; simp, hu, hnote⟩
        · exact .inl ⟨ws, .head _, hmemWs⟩
      · exact .inl ⟨ws', .tail _ hframe, hmemWs⟩
    · exact .inr (.inl hfound)
    · refine .inr (.inr ⟨hyStack, fun u hu hux => ?_⟩)
      obtain ⟨u', hu', hle', hnote⟩ := hnoted u ((hmem u).mp hu) hux
      exact ⟨u', (hmem u').mpr hu', hle', Nat.le_trans (hlowLe u') hnote⟩

end Follow

/-! ## Meeting a vertex -/

section Enter

variable {u : Nat}

theorem isSome_enter (hw : w < s.index.size) (u : Nat) :
    ((s.enter g w).index.getD u none).isSome ↔ u = w ∨ (s.index.getD u none).isSome := by
  rw [LowLink.enter, getD_setIfInBounds_of_lt hw]
  by_cases huw : u = w
  · rw [if_pos huw]
    exact iff_of_true rfl (.inl huw)
  · rw [if_neg huw, or_iff_right huw]

theorem number_enter_self (hw : w < s.index.size) : (s.enter g w).number w = s.nextIndex := by
  rw [number, LowLink.enter, getD_setIfInBounds_of_lt hw, if_pos rfl]
  rfl

theorem number_enter_of_ne (hw : w < s.index.size) (hne : u ≠ w) :
    (s.enter g w).number u = s.number u := by
  rw [number, LowLink.enter, getD_setIfInBounds_of_lt hw, if_neg hne, number]

theorem lowOf_enter_self (hw : w < s.low.size) : (s.enter g w).lowOf w = s.nextIndex :=
  (getD_setIfInBounds_of_lt hw ..).trans (if_pos rfl)

theorem lowOf_enter_of_ne (hw : w < s.low.size) (hne : u ≠ w) :
    (s.enter g w).lowOf u = s.lowOf u :=
  (getD_setIfInBounds_of_lt hw ..).trans (if_neg hne)

theorem WellFormed.not_mem_of_new (h : WellFormed g s) (hnew : s.index.getD w none = none) :
    w ∉ s.stack ∧ w ∉ s.components.flatten := by
  rw [← not_or, ← h.met_iff, hnew]
  exact Bool.false_ne_true

/-- What meeting `w` changes: it has the next number, and is the innermost vertex being visited. The
vertices on the stack keep their numbers, and what is noted for them. -/
structure Meets (s s' : LowLink) (w : Nat) : Prop where
  stack : s'.stack = w :: s.stack
  visiting : s'.visiting = w :: s.visiting
  number_self : s'.number w = s.nextIndex
  lowOf_self : s'.lowOf w = s.nextIndex
  number : ∀ u ∈ s.stack, s'.number u = s.number u
  lowOf : ∀ u ∈ s.stack, s'.lowOf u = s.lowOf u

theorem WellFormed.meets (h : WellFormed g s) (hw : w < g.size) (hnew : s.index.getD w none = none)
    (hvisiting : frames.map (·.1) = s.visiting) : Meets s ({ s with frames }.enter g w) w where
  stack := rfl
  visiting := congrArg (w :: ·) hvisiting
  number_self := number_enter_self (h.size_index ▸ hw)
  lowOf_self := lowOf_enter_self (h.size_low ▸ hw)
  number _ hu := number_enter_of_ne (h.size_index ▸ hw)
    (ne_of_mem_of_not_mem hu (h.not_mem_of_new hnew).1)
  lowOf _ hu := lowOf_enter_of_ne (h.size_low ▸ hw)
    (ne_of_mem_of_not_mem hu (h.not_mem_of_new hnew).1)

/-- What is being visited and is not above a vertex that was on the stack was being visited already. -/
theorem Meets.visiting_before {s' : LowLink} (hm : Meets s s' w) (h : WellFormed g s) {x : Nat}
    (hx : x ∈ s.stack) (hu : u ∈ s'.visiting) (hle : s'.number u ≤ s'.number x) :
    u ∈ s.visiting ∧ s.number u ≤ s.number x := by
  rw [hm.number x hx] at hle
  rw [hm.visiting] at hu
  rcases List.mem_cons.mp hu with rfl | hu
  · rw [hm.number_self] at hle
    exact absurd (h.number_lt x hx) (Nat.not_lt_of_le hle)
  · rw [hm.number u (h.visiting_mem u hu)] at hle
    exact ⟨hu, hle⟩

theorem WellFormed.enter (h : WellFormed g s) (hw : w < g.size) (hnew : s.index.getD w none = none)
    (hvisiting : frames.map (·.1) = s.visiting)
    (hnext : ∀ frame ∈ frames, ∀ u ∈ frame.2, u ∈ g.next frame.1) :
    WellFormed g ({ s with frames }.enter g w) := by
  have hm := h.meets hw hnew hvisiting
  constructor
  case size_index => exact (Array.size_setIfInBounds ..).trans h.size_index
  case size_low => exact (Array.size_setIfInBounds ..).trans h.size_low
  case size_onStack => exact (Array.size_setIfInBounds ..).trans h.size_onStack
  case onStack_iff =>
    intro u
    rw [hm.stack, List.mem_cons, LowLink.enter, getD_setIfInBounds_of_lt (h.size_onStack ▸ hw)]
    by_cases huw : u = w
    · rw [if_pos huw]
      exact iff_of_true rfl (.inl huw)
    · rw [if_neg huw, or_iff_right huw]
      exact h.onStack_iff u
  case met_iff =>
    intro u
    rw [isSome_enter (h.size_index ▸ hw), h.met_iff, ← or_assoc]
    exact or_congr List.mem_cons.symm Iff.rfl
  case disjoint =>
    intro u hu
    rcases List.mem_cons.mp hu with rfl | hu
    · exact (h.not_mem_of_new hnew).2
    · exact h.disjoint u hu
  case descending =>
    refine List.pairwise_cons.mpr ⟨fun u hu => ?_, h.descending.imp_of_mem fun hu hu' hlt => ?_⟩
    · rw [hm.number_self, hm.number u hu]
      exact h.number_lt u hu
    · rwa [hm.number _ hu, hm.number _ hu']
  case number_lt =>
    intro u hu
    rcases List.mem_cons.mp hu with rfl | hu
    · exact Nat.lt_succ_of_le (Nat.le_of_eq hm.number_self)
    · exact Nat.lt_succ_of_lt (Nat.lt_of_le_of_lt (Nat.le_of_eq (hm.number u hu)) (h.number_lt u hu))
  case visiting_mem =>
    rw [hm.visiting, hm.stack]
    exact fun u hu => List.mem_cons.mpr ((List.mem_cons.mp hu).imp_right (h.visiting_mem u))
  case visiting_descending =>
    rw [hm.visiting]
    refine List.pairwise_cons.mpr ⟨fun u hu => ?_, ?_⟩
    · rw [hm.number_self, hm.number u (h.visiting_mem u hu)]
      exact h.number_lt u (h.visiting_mem u hu)
    · refine h.visiting_descending.imp_of_mem fun hu hu' hlt => ?_
      rwa [hm.number _ (h.visiting_mem _ hu), hm.number _ (h.visiting_mem _ hu')]
  case mem_next =>
    exact fun frame hframe =>
      (List.mem_cons.mp hframe).elim (fun heq => heq ▸ fun _ hu => hu) (hnext frame)

theorem Known.enter (h : Known g s) (hwf : WellFormed g s) (hw : w < g.size)
    (hnew : s.index.getD w none = none) (hvisiting : frames.map (·.1) = s.visiting)
    (hleads : ∀ v ∈ s.visiting, Leads g v w)
    (hframes : ∀ x ws, (x, ws) ∈ s.frames → ∀ y ∈ ws, y ≠ w → ∃ ws', (x, ws') ∈ frames ∧ y ∈ ws') :
    Known g ({ s with frames }.enter g w) := by
  have hm := hwf.meets hw hnew hvisiting
  have hmem : ∀ u ∈ s.visiting, u ∈ s.stack := hwf.visiting_mem
  have htail : ∀ u ∈ s.visiting, u ∈ ({ s with frames }.enter g w).visiting := fun u hu =>
    hm.visiting ▸ .tail _ hu
  constructor
  case low_le =>
    rw [hm.visiting]
    intro u hu
    rcases List.mem_cons.mp hu with rfl | hu
    · exact Nat.le_of_eq (hm.lowOf_self.trans hm.number_self.symm)
    · rw [hm.number u (hmem u hu), hm.lowOf u (hmem u hu)]
      exact h.low_le u hu
  case low_reached =>
    rw [hm.visiting]
    intro u hu
    rcases List.mem_cons.mp hu with rfl | hu
    · exact ⟨u, .head _, hm.number_self.trans hm.lowOf_self.symm, .refl⟩
    · obtain ⟨z, hz, hnumber, hz'⟩ := h.low_reached u hu
      exact ⟨z, .tail _ hz, by rw [hm.number z hz, hm.lowOf u (hmem u hu), hnumber], hz'⟩
  case up =>
    intro u hu x hin hle
    rcases List.mem_cons.mp hin with rfl | hx
    · rw [hm.visiting] at hu
      rcases List.mem_cons.mp hu with rfl | hu
      · exact .refl
      · exact hleads u hu
    · obtain ⟨hu, hle⟩ := hm.visiting_before hwf hx hu hle
      exact h.up u hu x hx hle
  case down =>
    intro x hin
    rcases List.mem_cons.mp hin with rfl | hx
    · exact ⟨x, hm.visiting ▸ .head _, Nat.le_refl _, .refl⟩
    · obtain ⟨u, hu, hle, hdown⟩ := h.down x hx
      exact ⟨u, htail u hu, by rwa [hm.number u (hmem u hu), hm.number x hx], hdown⟩
  case noted =>
    intro x hin y hy
    rcases List.mem_cons.mp hin with rfl | hx
    · exact .inl ⟨_, .head _, hy⟩
    rcases h.noted x hx y hy with ⟨ws, hframe, hyWs⟩ | hfound | ⟨hyStack, hnoted⟩
    · by_cases hyw : y = w
      · subst hyw
        refine .inr (.inr ⟨.head _, fun u hu hle => ⟨u, hu, Nat.le_refl _, ?_⟩⟩)
        obtain ⟨hu, -⟩ := hm.visiting_before hwf hx hu hle
        rw [hm.number_self, hm.lowOf u (hmem u hu)]
        exact Nat.le_trans (h.low_le u hu) (Nat.le_of_lt (hwf.number_lt u (hmem u hu)))
      · obtain ⟨ws', hframe', hyWs'⟩ := hframes x ws hframe y hyWs hyw
        exact .inl ⟨ws', .tail _ hframe', hyWs'⟩
    · exact .inr (.inl hfound)
    · refine .inr (.inr ⟨.tail _ hyStack, fun u hu hle => ?_⟩)
      obtain ⟨hu, hle⟩ := hm.visiting_before hwf hx hu hle
      obtain ⟨u', hu', hle', hnote⟩ := hnoted u hu hle
      exact ⟨u', htail u' hu', by rwa [hm.number u (hmem u hu), hm.number u' (hmem u' hu')],
        by rwa [hm.lowOf u' (hmem u' hu'), hm.number y hyStack]⟩

end Enter

/-! ## Leaving a vertex -/

section Leave

variable {u : Nat}

@[simp] theorem frames_leave : (s.leave v frames).frames = frames := by cases frames <;> rfl

@[simp] theorem index_leave : (s.leave v frames).index = s.index := by cases frames <;> rfl

@[simp] theorem onStack_leave : (s.leave v frames).onStack = s.onStack := by cases frames <;> rfl

@[simp] theorem stack_leave : (s.leave v frames).stack = s.stack := by cases frames <;> rfl

@[simp] theorem components_leave : (s.leave v frames).components = s.components := by
  cases frames <;> rfl

@[simp] theorem nextIndex_leave : (s.leave v frames).nextIndex = s.nextIndex := by
  cases frames <;> rfl

@[simp] theorem number_leave : (s.leave v frames).number u = s.number u := by rw [number, index_leave]; rfl

@[simp] theorem size_low_leave : (s.leave v frames).low.size = s.low.size := by
  cases frames with
  | nil => rfl
  | cons frame frames => exact Array.size_modify ..

@[simp] theorem visiting_leave : (s.leave v frames).visiting = frames.map (·.1) := by
  rw [visiting, frames_leave]

theorem lowOf_lower {i : Nat} (hv : v < s.low.size) :
    (s.lower v i).lowOf u = if u = v then min (s.lowOf v) i else s.lowOf u := by
  simp only [lowOf, lower, Array.getD_eq_getD_getElem?, Array.getElem?_modify]
  by_cases huv : v = u
  · subst huv
    simp [hv]
  · rw [if_neg huv, if_neg (Ne.symm huv)]

theorem WellFormed.lt_size (h : WellFormed g s) (hv : v ∈ s.stack) : v < g.size := by
  have hmet := (h.met_iff v).mpr (.inl hv)
  rw [Array.getD_eq_getD_getElem?] at hmet
  refine h.size_index ▸ Nat.lt_of_not_le fun hle => ?_
  rw [Array.getElem?_eq_none_iff.mpr hle] at hmet
  cases hmet

/-- What the vertex leads to is noted for the one below it. -/
theorem WellFormed.lowOf_leave (h : WellFormed g s) (hframes : s.frames = (v, ws) :: frames) (u : Nat) :
    (s.leave v frames).lowOf u =
      if (frames.map (·.1)).head? = some u then min (s.lowOf u) (s.lowOf v) else s.lowOf u := by
  cases frames with
  | nil => rfl
  | cons frame frames =>
    have hmem : frame.1 ∈ s.visiting := visiting_eq hframes ▸ .tail _ (.head _)
    have hparent : frame.1 < s.low.size := h.size_low ▸ h.lt_size (h.visiting_mem _ hmem)
    refine (lowOf_lower hparent).trans ?_
    by_cases hu : u = frame.1
    · subst hu
      rw [if_pos rfl, if_pos (by rw [List.map_cons, List.head?_cons])]
      rfl
    · rw [if_neg hu, if_neg (by simpa using Ne.symm hu)]

/-- The vertices above one on the stack were met after it, and those below before it. -/
theorem WellFormed.exists_split (h : WellFormed g s) (hv : v ∈ s.stack) : ∃ above below,
    s.stack.take (s.stack.idxOf v + 1) = above ++ [v] ∧
    s.stack.drop (s.stack.idxOf v + 1) = below ∧ s.stack = above ++ [v] ++ below ∧
    (∀ u ∈ above, s.number v < s.number u) ∧ ∀ u ∈ below, s.number u < s.number v := by
  obtain ⟨above, below, hstack⟩ := List.append_of_mem hv
  have hdescending := h.descending
  rw [hstack, List.pairwise_append, List.pairwise_cons] at hdescending
  obtain ⟨-, ⟨hbelow, -⟩, habove⟩ := hdescending
  have habove : ∀ u ∈ above, s.number v < s.number u := fun u hu => habove u hu v (.head _)
  have hnot : v ∉ above := fun hmem => Nat.lt_irrefl _ (habove v hmem)
  have hlength : s.stack.idxOf v + 1 = (above ++ [v]).length := by
    rw [hstack, List.idxOf_append_of_notMem hnot, List.idxOf_cons_self, List.length_append]
    rfl
  have hstack : s.stack = above ++ [v] ++ below := hstack.trans (List.append_cons ..)
  refine ⟨above, below, ?_, ?_, hstack, habove, hbelow⟩
  · rw [hlength, hstack, List.take_left]
  · rw [hlength, hstack, List.drop_left]

theorem WellFormed.mem_take_iff (h : WellFormed g s) (hv : v ∈ s.stack) :
    u ∈ s.stack.take (s.stack.idxOf v + 1) ↔ u ∈ s.stack ∧ s.number v ≤ s.number u := by
  obtain ⟨above, below, htake, -, hstack, habove, hbelow⟩ := h.exists_split hv
  rw [htake, hstack, List.mem_append (t := below)]
  refine ⟨fun hu => ⟨.inl hu, ?_⟩, fun ⟨hu, hle⟩ => hu.resolve_right fun hmem => ?_⟩
  · rcases List.mem_append.mp hu with hu | hu
    · exact Nat.le_of_lt (habove u hu)
    · exact Nat.le_of_eq (by rw [List.mem_singleton.mp hu])
  · exact Nat.not_lt_of_le hle (hbelow u hmem)

theorem WellFormed.mem_drop_iff (h : WellFormed g s) (hv : v ∈ s.stack) :
    u ∈ s.stack.drop (s.stack.idxOf v + 1) ↔ u ∈ s.stack ∧ s.number u < s.number v := by
  obtain ⟨above, below, -, hdrop, hstack, habove, hbelow⟩ := h.exists_split hv
  rw [hdrop, hstack, List.mem_append (t := below)]
  refine ⟨fun hu => ⟨.inr hu, hbelow u hu⟩, fun ⟨hu, hlt⟩ => hu.resolve_left fun hmem => ?_⟩
  rcases List.mem_append.mp hmem with hmem | hmem
  · exact Nat.lt_asymm hlt (habove u hmem)
  · exact Nat.lt_irrefl _ (List.mem_singleton.mp hmem ▸ hlt)

theorem WellFormed.leave (h : WellFormed g s) (hframes : s.frames = (v, ws) :: frames) :
    WellFormed g (s.leave v frames) where
  size_index := by simpa using h.size_index
  size_low := by simpa using h.size_low
  size_onStack := by simpa using h.size_onStack
  onStack_iff := by simpa using h.onStack_iff
  met_iff := by
    rw [index_leave, stack_leave, components_leave]
    exact h.met_iff
  disjoint := by
    rw [stack_leave, components_leave]
    exact h.disjoint
  descending := by simpa using h.descending
  number_lt := by simpa using h.number_lt
  visiting_mem u hu := by
    rw [visiting_leave] at hu
    rw [stack_leave]
    exact h.visiting_mem u (visiting_eq hframes ▸ .tail _ hu)
  visiting_descending := by
    have hdescending := h.visiting_descending
    rw [visiting_eq hframes] at hdescending
    simpa using hdescending.of_cons
  mem_next frame hframe := by
    rw [frames_leave] at hframe
    exact h.mem_next frame (hframes ▸ .tail _ hframe)

theorem WellFormed.lt_of_below (h : WellFormed g s) (hframes : s.frames = (v, ws) :: frames)
    (hu : u ∈ frames.map (·.1)) : s.number u < s.number v := by
  have hdescending := h.visiting_descending
  rw [visiting_eq hframes] at hdescending
  exact List.rel_of_pairwise_cons hdescending hu

theorem eq_or_mem_visiting_leave (hframes : s.frames = (v, ws) :: frames) (hu : u ∈ s.visiting) :
    u = v ∨ u ∈ (s.leave v frames).visiting := by
  rw [visiting_leave]
  exact List.mem_cons.mp (visiting_eq hframes ▸ hu)

theorem WellFormed.mem_visiting_leave_iff (h : WellFormed g s)
    (hframes : s.frames = (v, ws) :: frames) :
    u ∈ (s.leave v frames).visiting ↔ u ∈ s.visiting ∧ s.number u < s.number v := by
  constructor
  · intro hu
    rw [visiting_leave] at hu
    exact ⟨visiting_eq hframes ▸ .tail _ hu, h.lt_of_below hframes hu⟩
  · rintro ⟨hu, hlt⟩
    exact (eq_or_mem_visiting_leave hframes hu).resolve_left fun heq => Nat.ne_of_lt (heq ▸ hlt) rfl

/-- A vertex without edges to follow is not the one whose edges are still to be followed. -/
theorem mem_frames_below {x y : Nat} (hframes : s.frames = (v, []) :: frames)
    (hframe : (x, ws) ∈ s.frames) (hy : y ∈ ws) : (x, ws) ∈ frames := by
  rw [hframes] at hframe
  rcases List.mem_cons.mp hframe with heq | hframe
  · cases heq
    cases hy
  · exact hframe

/-- The vertex below the innermost one was met after the others below it. -/
theorem WellFormed.exists_parent (h : WellFormed g s) (hframes : s.frames = (v, ws) :: frames)
    (hu : u ∈ frames.map (·.1)) :
    ∃ parent, (frames.map (·.1)).head? = some parent ∧ s.number u ≤ s.number parent := by
  have hdescending := h.visiting_descending
  rw [visiting_eq hframes] at hdescending
  have hdescending := hdescending.of_cons
  generalize frames.map (·.1) = below at hu hdescending ⊢
  cases below with
  | nil => cases hu
  | cons parent below =>
    refine ⟨parent, rfl, ?_⟩
    rcases List.mem_cons.mp hu with rfl | hu
    · exact Nat.le_refl _
    · exact Nat.le_of_lt (List.rel_of_pairwise_cons hdescending hu)

/-- The vertex is left, but leads further down the stack. -/
theorem Known.leave (h : Known g s) (hwf : WellFormed g s) (hframes : s.frames = (v, []) :: frames)
    (hlow : s.lowOf v ≠ s.number v) : Known g (s.leave v frames) := by
  have hv : v ∈ s.visiting := visiting_eq hframes ▸ .head _
  have htail : ∀ u ∈ (s.leave v frames).visiting, u ∈ s.visiting ∧ s.number u < s.number v :=
    fun u => (hwf.mem_visiting_leave_iff hframes).mp
  have hlowOf := hwf.lowOf_leave hframes
  have hlowLe : ∀ u, (s.leave v frames).lowOf u ≤ s.lowOf u := fun u => by
    rw [hlowOf]
    split
    · exact Nat.min_le_left ..
    · exact Nat.le_refl _
  -- From `v` one comes to something further down, and from there to something that is being visited.
  obtain ⟨z, hz, hzLow, hvz⟩ := h.low_reached v hv
  have hzv : s.number z < s.number v := hzLow ▸ Nat.lt_of_le_of_ne (h.low_le v hv) hlow
  obtain ⟨y, hy, hyz, hzy⟩ := h.down z hz
  have hyBelow : y ∈ (s.leave v frames).visiting :=
    (hwf.mem_visiting_leave_iff hframes).mpr ⟨hy, Nat.lt_of_le_of_lt hyz hzv⟩
  constructor
  case low_le =>
    intro u hu
    rw [number_leave]
    exact Nat.le_trans (hlowLe u) (h.low_le u (htail u hu).1)
  case low_reached =>
    intro u hu
    obtain ⟨hu, hlt⟩ := htail u hu
    simp only [stack_leave, number_leave]
    rw [hlowOf]
    split
    · rcases Nat.le_total (s.lowOf u) (s.lowOf v) with hle | hle
      · rw [Nat.min_eq_left hle]
        exact h.low_reached u hu
      · have huv : Leads g u v := h.up u hu v (hwf.visiting_mem v hv) (Nat.le_of_lt hlt)
        exact ⟨z, hz, by rw [Nat.min_eq_right hle, hzLow], huv.trans hvz⟩
    · exact h.low_reached u hu
  case up =>
    intro u hu x hx hle
    rw [stack_leave] at hx
    rw [number_leave, number_leave] at hle
    exact h.up u (htail u hu).1 x hx hle
  case down =>
    intro x hx
    rw [stack_leave] at hx
    simp only [number_leave]
    obtain ⟨u, hu, hle, hxu⟩ := h.down x hx
    rcases eq_or_mem_visiting_leave hframes hu with rfl | hu
    · exact ⟨y, hyBelow, by omega, hxu.trans (hvz.trans hzy)⟩
    · exact ⟨u, hu, hle, hxu⟩
  case noted =>
    intro x hx y' hy'
    rw [stack_leave] at hx
    simp only [frames_leave, components_leave, stack_leave, number_leave]
    rcases h.noted x hx y' hy' with ⟨ws, hframe, hyWs⟩ | hfound | ⟨hyStack, hnoted⟩
    · exact .inl ⟨ws, mem_frames_below hframes hframe hyWs, hyWs⟩
    · exact .inr (.inl hfound)
    · refine .inr (.inr ⟨hyStack, fun u hu hle => ?_⟩)
      obtain ⟨u', hu', hle', hnote⟩ := hnoted u (htail u hu).1 hle
      rcases eq_or_mem_visiting_leave hframes hu' with rfl | hu'
      · rw [visiting_leave] at hu ⊢
        obtain ⟨parent, hparent, hlast⟩ := hwf.exists_parent hframes hu
        refine ⟨parent, List.mem_of_head? hparent, hlast, ?_⟩
        rw [hlowOf, if_pos hparent]
        exact Nat.le_trans (Nat.min_le_right ..) hnote
      · exact ⟨u', hu', hle', Nat.le_trans (hlowLe u') hnote⟩

end Leave

/-! ## Finding a component -/

section Pop

variable {u : Nat}

theorem flatten_pop : (s.pop v).components.flatten =
    s.components.flatten ++ ascending (s.stack.take (s.stack.idxOf v + 1)) := by
  rw [pop, List.flatten_append, List.flatten_singleton]

theorem WellFormed.pop (h : WellFormed g s) (hv : v ∈ s.stack)
    (hbelow : ∀ u ∈ s.visiting, s.number u < s.number v) : WellFormed g (s.pop v) := by
  have hsplit : ∀ u, u ∈ s.stack ↔ u ∈ (s.pop v).stack ∨
      u ∈ ascending (s.stack.take (s.stack.idxOf v + 1)) := fun u => by
    rw [mem_ascending, or_comm, ← List.mem_append, LowLink.pop, List.take_append_drop]
  have hdisjoint : ∀ u ∈ (s.pop v).stack, u ∉ s.stack.take (s.stack.idxOf v + 1) := fun u hu hmem =>
    Nat.not_lt_of_le ((h.mem_take_iff hv).mp hmem).2 ((h.mem_drop_iff hv).mp hu).2
  have hmem : ∀ u ∈ (s.pop v).stack, u ∈ s.stack := fun u hu => (hsplit u).mpr (.inl hu)
  constructor
  case size_index => exact h.size_index
  case size_low => exact h.size_low
  case size_onStack => exact (getElem?_foldl_set false _ s.onStack 0).1.trans h.size_onStack
  case onStack_iff =>
    intro u
    have honStack : (s.pop v).onStack = (s.stack.take (s.stack.idxOf v + 1)).foldl
        (fun a w => a.setIfInBounds w false) s.onStack := rfl
    rw [honStack, Array.getD_eq_getD_getElem?, (getElem?_foldl_set ..).2]
    by_cases hu : u ∈ s.stack.take (s.stack.idxOf v + 1)
    · have hlt : u < s.onStack.size := h.size_onStack ▸ h.lt_size (List.mem_of_mem_take hu)
      rw [if_pos ⟨hu, hlt⟩]
      exact iff_of_false Bool.false_ne_true fun hin => hdisjoint u hin hu
    · rw [if_neg fun hin => hu hin.1, ← Array.getD_eq_getD_getElem?, h.onStack_iff, hsplit, mem_ascending]
      exact or_iff_left hu
  case met_iff =>
    intro u
    rw [show (s.pop v).index = s.index from rfl, h.met_iff, hsplit, flatten_pop, List.mem_append,
      or_right_comm, or_assoc]
  case disjoint =>
    intro u hu
    rw [flatten_pop, List.mem_append, mem_ascending, not_or]
    exact ⟨h.disjoint u (hmem u hu), hdisjoint u hu⟩
  case descending => exact h.descending.sublist (List.drop_sublist ..)
  case number_lt => exact fun u hu => h.number_lt u (hmem u hu)
  case visiting_mem =>
    exact fun u hu => (h.mem_drop_iff hv).mpr ⟨h.visiting_mem u hu, hbelow u hu⟩
  case visiting_descending => exact h.visiting_descending
  case mem_next => exact h.mem_next

/-- Nothing leads from what is taken from the stack to what stays there. -/
theorem Known.mem_of_next (h : Known g s) (hwf : WellFormed g s) (hframes : s.frames = (v, []) :: frames)
    (hlow : s.lowOf v = s.number v) {x y : Nat} (hx : x ∈ s.stack.take (s.stack.idxOf v + 1))
    (hy : y ∈ g.next x) :
    y ∈ s.stack.take (s.stack.idxOf v + 1) ∨ y ∈ s.components.flatten := by
  have hv : v ∈ s.visiting := visiting_eq hframes ▸ .head _
  have hvStack := hwf.visiting_mem v hv
  obtain ⟨hx, hvx⟩ := (hwf.mem_take_iff hvStack).mp hx
  rcases h.noted x hx y hy with ⟨ws, hframe, hyWs⟩ | hfound | ⟨hyStack, hnoted⟩
  · have hlt := hwf.lt_of_below hframes
      (List.mem_map_of_mem (mem_frames_below hframes hframe hyWs))
    exact absurd hvx (Nat.not_le_of_lt hlt)
  · exact .inr hfound
  · obtain ⟨u, hu, hvu, hnote⟩ := hnoted v hv hvx
    rw [visiting_eq hframes] at hu
    rcases List.mem_cons.mp hu with rfl | hu
    · exact .inl ((hwf.mem_take_iff hvStack).mpr ⟨hyStack, hlow ▸ hnote⟩)
    · exact absurd hvu (Nat.not_le_of_lt (hwf.lt_of_below hframes hu))

/-- What is taken from the stack is a component. -/
theorem Known.mem_take_iff (h : Known g s) (hwf : WellFormed g s) (hc : Complete g s)
    (hframes : s.frames = (v, []) :: frames) (hlow : s.lowOf v = s.number v) :
    u ∈ s.stack.take (s.stack.idxOf v + 1) ↔ Leads g v u ∧ Leads g u v := by
  have hv : v ∈ s.visiting := visiting_eq hframes ▸ .head _
  have hvStack := hwf.visiting_mem v hv
  have hclosed : ∀ x y, x ∈ s.stack.take (s.stack.idxOf v + 1) → Leads g x y →
      y ∈ s.stack.take (s.stack.idxOf v + 1) ∨ y ∈ s.components.flatten := fun x y hx hxy => by
    induction hxy with
    | refl => exact .inl hx
    | tail _ hy ih =>
      rcases ih with hin | hfound
      · exact h.mem_of_next hwf hframes hlow hin hy
      · exact .inr (hc.closed _ hfound _ hy)
  constructor
  · intro hu
    obtain ⟨huStack, hle⟩ := (hwf.mem_take_iff hvStack).mp hu
    refine ⟨h.up v hv u huStack hle, ?_⟩
    obtain ⟨y, hy, -, huy⟩ := h.down u huStack
    have hyStack := hwf.visiting_mem y hy
    have hyTake := (hclosed u y hu huy).resolve_right (hwf.disjoint y hyStack)
    rw [visiting_eq hframes] at hy
    rcases List.mem_cons.mp hy with rfl | hy
    · exact huy
    · have hlt := hwf.lt_of_below hframes hy
      exact absurd ((hwf.mem_take_iff hvStack).mp hyTake).2 (Nat.not_le_of_lt hlt)
  · rintro ⟨hvu, huv⟩
    have hself : v ∈ s.stack.take (s.stack.idxOf v + 1) :=
      (hwf.mem_take_iff hvStack).mpr ⟨hvStack, Nat.le_refl _⟩
    refine (hclosed v u hself hvu).resolve_right fun hfound => ?_
    exact hwf.disjoint v hvStack (hc.leads hfound huv)

theorem Complete.pop (hc : Complete g s) (h : Known g s) (hwf : WellFormed g s)
    (hframes : s.frames = (v, []) :: frames) (hlow : s.lowOf v = s.number v) :
    Complete g ((s.leave v frames).pop v) := by
  have hcomponents : ((s.leave v frames).pop v).components =
      s.components ++ [ascending (s.stack.take (s.stack.idxOf v + 1))] := by
    rw [LowLink.pop, components_leave, stack_leave]
  have hmem : ∀ u, u ∈ ascending (s.stack.take (s.stack.idxOf v + 1)) ↔ Leads g v u ∧ Leads g u v :=
    fun u => mem_ascending.trans (h.mem_take_iff hwf hc hframes hlow)
  have hflat : ((s.leave v frames).pop v).components.flatten =
      s.components.flatten ++ ascending (s.stack.take (s.stack.idxOf v + 1)) := by
    rw [flatten_pop, components_leave, stack_leave]
  constructor
  case closed =>
    intro x hx y hy
    rw [hflat, List.mem_append] at hx ⊢
    rcases hx with hx | hx
    · exact .inl (hc.closed x hx y hy)
    · rw [mem_ascending] at hx ⊢
      exact (h.mem_of_next hwf hframes hlow hx hy).symm
  case ne_nil =>
    intro c hc'
    rw [hcomponents] at hc'
    rcases List.mem_append.mp hc' with hc' | hc'
    · exact hc.ne_nil c hc'
    · exact List.ne_nil_of_mem (List.mem_singleton.mp hc' ▸ (hmem v).mpr ⟨.refl, .refl⟩)
  case sorted =>
    intro c hc'
    rw [hcomponents] at hc'
    rcases List.mem_append.mp hc' with hc' | hc'
    · exact hc.sorted c hc'
    · exact List.mem_singleton.mp hc' ▸ ascending_pairwise _
  case component =>
    intro c hc' x hx w
    rw [hcomponents] at hc'
    rcases List.mem_append.mp hc' with hc' | hc'
    · exact hc.component c hc' x hx w
    · obtain rfl := List.mem_singleton.mp hc'
      obtain ⟨hvx, hxv⟩ := (hmem x).mp hx
      exact (hmem w).trans ⟨fun ⟨hvw, hwv⟩ => ⟨hxv.trans hvw, hwv.trans hvx⟩,
        fun ⟨hxw, hwx⟩ => ⟨hvx.trans hxw, hwx.trans hxv⟩⟩
  case nodup =>
    rw [hflat]
    refine List.nodup_append.mpr ⟨hc.nodup, (ascending_pairwise _).imp Nat.ne_of_lt, ?_⟩
    rintro x hx y hy rfl
    exact hwf.disjoint x (List.mem_of_mem_take (mem_ascending.mp hy)) hx

/-- The vertex is left, and makes a component with what is above it. -/
theorem Known.pop (h : Known g s) (hwf : WellFormed g s) (hframes : s.frames = (v, []) :: frames)
    (hlow : s.lowOf v = s.number v) : Known g ((s.leave v frames).pop v) := by
  have hv : v ∈ s.visiting := visiting_eq hframes ▸ .head _
  have hvisiting : ∀ u, u ∈ ((s.leave v frames).pop v).visiting ↔
      u ∈ s.visiting ∧ s.number u < s.number v := fun u => hwf.mem_visiting_leave_iff hframes
  have hstack : ∀ x, x ∈ ((s.leave v frames).pop v).stack ↔ x ∈ s.stack ∧ s.number x < s.number v :=
    fun x => by
      rw [LowLink.pop, stack_leave]
      exact hwf.mem_drop_iff (hwf.visiting_mem v hv)
  have hnumber : ∀ u, ((s.leave v frames).pop v).number u = s.number u := fun u => number_leave
  -- The one below noted nothing new: where `v` leads to is not below it.
  have hlowOf : ∀ u ∈ s.visiting, s.number u < s.number v →
      ((s.leave v frames).pop v).lowOf u = s.lowOf u := fun u hu hlt => by
    refine (hwf.lowOf_leave hframes u).trans ?_
    have hle := h.low_le u hu
    split
    · exact Nat.min_eq_left (by omega)
    · rfl
  constructor
  case low_le =>
    intro u hu
    obtain ⟨hu, hlt⟩ := (hvisiting u).mp hu
    rw [hlowOf u hu hlt, hnumber]
    exact h.low_le u hu
  case low_reached =>
    intro u hu
    obtain ⟨hu, hlt⟩ := (hvisiting u).mp hu
    obtain ⟨z, hz, hzLow, huz⟩ := h.low_reached u hu
    have hle := h.low_le u hu
    exact ⟨z, (hstack z).mpr ⟨hz, by omega⟩, by rw [hnumber, hlowOf u hu hlt, hzLow], huz⟩
  case up =>
    intro u hu x hx hle
    rw [hnumber, hnumber] at hle
    exact h.up u ((hvisiting u).mp hu).1 x ((hstack x).mp hx).1 hle
  case down =>
    intro x hx
    obtain ⟨hx, hlt⟩ := (hstack x).mp hx
    obtain ⟨u, hu, hle, hxu⟩ := h.down x hx
    exact ⟨u, (hvisiting u).mpr ⟨hu, Nat.lt_of_le_of_lt hle hlt⟩, by rwa [hnumber, hnumber], hxu⟩
  case noted =>
    intro x hx y hy
    obtain ⟨hx, hlt⟩ := (hstack x).mp hx
    rw [flatten_pop, components_leave, stack_leave, List.mem_append, mem_ascending,
      hwf.mem_take_iff (hwf.visiting_mem v hv), hstack]
    rcases h.noted x hx y hy with ⟨ws, hframe, hyWs⟩ | hfound | ⟨hyStack, hnoted⟩
    · have hbelow := mem_frames_below hframes hframe hyWs
      exact .inl ⟨ws, by rwa [LowLink.pop, frames_leave], hyWs⟩
    · exact .inr (.inl (.inl hfound))
    · by_cases hyv : s.number v ≤ s.number y
      · exact .inr (.inl (.inr ⟨hyStack, hyv⟩))
      have hyv := Nat.lt_of_not_le hyv
      refine .inr (.inr ⟨⟨hyStack, hyv⟩, fun u hu hle => ?_⟩)
      rw [hnumber, hnumber] at hle
      obtain ⟨u', hu', hle', hnote⟩ := hnoted u ((hvisiting u).mp hu).1 hle
      -- The vertex `v` itself has noted nothing below it.
      have hne : u' ≠ v := by
        rintro rfl
        omega
      have hbelow := (eq_or_mem_visiting_leave hframes hu').resolve_left hne
      have hlt' := ((hvisiting u').mp hbelow).2
      exact ⟨u', hbelow, by rwa [hnumber, hnumber], by rwa [hnumber, hlowOf u' hu' hlt']⟩

end Pop

end LowLink

end PatternAutomata.Graph
