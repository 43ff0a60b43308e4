import Mathlib.Data.List.Sort
import PatternAutomata.Proofs.Graph.LowLink

/-!
# One search and two

The search that keeps a stack finishes the vertices in the order of any depth-first search. It finds a
component when it finishes the vertex of the component that it met first, which is the one finished last.
So it finds the components in the order in which the search by way of the turned graph lists them.
-/

namespace PatternAutomata.Graph

namespace LowLink

variable {g : Graph} {s : LowLink} {v w : Nat} {ws : List Nat} {frames : List (Nat × List Nat)}

/-! ## A step -/

/-- The vertex that the next step leaves. -/
def leaving (s : LowLink) : List Nat :=
  match s.frames with
  | (v, []) :: _ => [v]
  | _ => []

/-- In an order that has the vertices left last in front, a vertex of the second component comes before
all vertices of the first one. -/
def Earlier (order : List Nat) (c d : List Nat) : Prop :=
  ∃ v ∈ d, ∀ u ∈ c, order.idxOf v < order.idxOf u

theorem Earlier.cons {order c d : List Nat} (h : Earlier order c d) (hc : v ∉ c) (hd : v ∉ d) :
    Earlier (v :: order) c d := by
  obtain ⟨w, hw, hearlier⟩ := h
  have hidx : ∀ u, u ≠ v → (v :: order).idxOf u = order.idxOf u + 1 := fun u hu =>
    List.idxOf_cons_ne _ (Ne.symm hu)
  refine ⟨w, hw, fun u hu => ?_⟩
  rw [hidx w fun heq => hd (heq ▸ hw), hidx u fun heq => hc (heq ▸ hu)]
  exact Nat.succ_lt_succ (hearlier u hu)

/-- All that holds of the search when the vertices `order` were left, the last one first. -/
structure Sound (g : Graph) (s : LowLink) (order : List Nat) : Prop where
  wellFormed : WellFormed g s
  known : Known g s
  complete : Complete g s
  earlier : s.components.Pairwise (Earlier order)

section Step

variable {order : List Nat}

/-- A vertex that is on the stack is left, but its component is not known yet. -/
theorem earlier_cons (hearlier : s.components.Pairwise (Earlier order))
    (hv : v ∉ s.components.flatten) : s.components.Pairwise (Earlier (v :: order)) := by
  have hnot : ∀ c ∈ s.components, v ∉ c := fun c hc hmem => hv (List.mem_flatten.mpr ⟨c, hc, hmem⟩)
  exact hearlier.imp_of_mem fun hc hd h => h.cons (hnot _ hc) (hnot _ hd)

theorem step_of_nil (hframes : s.frames = (v, []) :: frames) : s.step g =
    if s.index.getD v none = some (s.low.getD v 0) then (s.leave v frames).pop v
    else s.leave v frames := by
  rw [step, hframes]

theorem step_of_some {i : Nat} (hframes : s.frames = (v, w :: ws) :: frames)
    (hw : s.index.getD w none = some i) : s.step g = { s with
      frames := (v, ws) :: frames
      low := if s.onStack.getD w false then s.low.modify v (min · i) else s.low } := by
  simp only [step, hframes, hw]
  split <;> rfl

theorem step_of_none (hframes : s.frames = (v, w :: ws) :: frames) (hw : s.index.getD w none = none) :
    s.step g = { s with frames := (v, ws) :: frames }.enter g w := by
  simp only [step, hframes, hw]

theorem Sound.leave (h : Sound g s order) (hframes : s.frames = (v, []) :: frames) :
    Sound g (s.step g) (v :: order) := by
  obtain ⟨hwf, hknown, hcomplete, hearlier⟩ := h
  have hv : v ∈ s.visiting := visiting_eq hframes ▸ .head _
  have hvStack := hwf.visiting_mem v hv
  have hnot := hwf.disjoint v hvStack
  have hleft := hwf.leave hframes
  obtain ⟨i, hi⟩ := Option.isSome_iff_exists.mp ((hwf.met_iff v).mpr (.inl hvStack))
  have hroot : s.index.getD v none = some (s.low.getD v 0) ↔ s.lowOf v = s.number v := by
    rw [number, hi, Option.some_inj, eq_comm]
    rfl
  rw [step_of_nil hframes]
  split
  · rename_i hlow
    have hlow := hroot.mp hlow
    refine ⟨hleft.pop (by rwa [stack_leave]) fun u hu => ?_, hknown.pop hwf hframes hlow,
      hcomplete.pop hknown hwf hframes hlow, ?_⟩
    · rw [number_leave, number_leave]
      exact ((hwf.mem_visiting_leave_iff hframes).mp hu).2
    · rw [pop, components_leave, stack_leave]
      refine List.pairwise_append.mpr ⟨earlier_cons hearlier hnot, List.pairwise_singleton .., ?_⟩
      intro c hc d hd
      obtain rfl := List.mem_singleton.mp hd
      refine ⟨v, mem_ascending.mpr ((hwf.mem_take_iff hvStack).mpr ⟨hvStack, Nat.le_refl _⟩),
        fun u hu => ?_⟩
      have huv : v ≠ u := fun heq => hnot (List.mem_flatten.mpr ⟨c, hc, heq ▸ hu⟩)
      rw [List.idxOf_cons_self, List.idxOf_cons_ne _ huv]
      exact Nat.succ_pos _
  · rename_i hlow
    have hlow := mt hroot.mpr hlow
    refine ⟨hleft, hknown.leave hwf hframes hlow, hcomplete.congr components_leave, ?_⟩
    rw [components_leave]
    exact earlier_cons hearlier hnot

theorem Sound.follow {i : Nat} (h : Sound g s order) (hframes : s.frames = (v, w :: ws) :: frames)
    (hi : s.index.getD w none = some i) : Sound g (s.step g) order := by
  obtain ⟨hwf, hknown, hcomplete, hearlier⟩ := h
  have hnumber : s.number w = i := by rw [number, hi]; rfl
  have hmet := (hwf.met_iff w).mp (hi ▸ rfl)
  have hv : v ∈ s.stack := hwf.visiting_mem v (visiting_eq hframes ▸ .head _)
  rw [step_of_some hframes hi]
  split
  · rename_i hon
    have hwStack := (hwf.onStack_iff w).mp hon
    have hlow : ∀ u, (s.low.modify v (min · i)).getD u 0 =
        if u = v then min (s.lowOf v) i else s.lowOf u := fun u =>
      lowOf_lower (hwf.size_low ▸ hwf.lt_size hv)
    refine ⟨hwf.follow hframes ((Array.size_modify ..).trans hwf.size_low),
      hknown.follow hwf hframes (fun u hu => (hlow u).trans (if_neg hu)) ?_ ?_ (.inr ⟨hwStack, ?_⟩),
      hcomplete.congr rfl, hearlier⟩
    · rw [hlow, if_pos rfl]
      exact Nat.min_le_left ..
    · rw [hlow, if_pos rfl, hnumber]
      exact (Nat.le_total (s.lowOf v) i).imp Nat.min_eq_left fun hle => ⟨hwStack, Nat.min_eq_right hle⟩
    · rw [hlow, if_pos rfl, hnumber]
      exact Nat.min_le_right ..
  · rename_i hon
    have hwFound := hmet.resolve_left fun hin => hon ((hwf.onStack_iff w).mpr hin)
    exact ⟨hwf.follow hframes hwf.size_low,
      hknown.follow hwf hframes (fun _ _ => rfl) (Nat.le_refl _) (.inl rfl) (.inl hwFound),
      hcomplete.congr rfl, hearlier⟩

theorem Sound.descend (h : Sound g s order) (hframes : s.frames = (v, w :: ws) :: frames)
    (hw : w < g.size) (hnew : s.index.getD w none = none) : Sound g (s.step g) order := by
  obtain ⟨hwf, hknown, hcomplete, hearlier⟩ := h
  have hvisiting := visiting_eq hframes
  have hv : v ∈ s.visiting := hvisiting ▸ .head _
  have hedge : w ∈ g.next v := hwf.mem_next (v, w :: ws) (by simp [hframes]) w (.head _)
  have hnext : ∀ frame ∈ (v, ws) :: frames, ∀ u ∈ frame.2, u ∈ g.next frame.1 :=
    (hwf.follow hframes hwf.size_low).mem_next
  rw [step_of_none hframes hnew]
  refine ⟨hwf.enter hw hnew hvisiting.symm hnext,
    hknown.enter hwf hw hnew hvisiting.symm (fun u hu => ?_) (fun x ws' hframe y hy hyw => ?_),
    hcomplete.congr rfl, hearlier⟩
  · have huv : s.number u ≤ s.number v := by
      rw [hvisiting] at hu
      rcases List.mem_cons.mp hu with rfl | hu
      · exact Nat.le_refl _
      · exact Nat.le_of_lt (hwf.lt_of_below hframes hu)
    exact (hknown.up u hu v (hwf.visiting_mem v hv) huv).tail hedge
  · rw [hframes] at hframe
    rcases List.mem_cons.mp hframe with heq | hframe
    · obtain ⟨rfl, rfl⟩ := Prod.mk.inj heq
      exact ⟨ws, .head _, (List.mem_cons.mp hy).resolve_left hyw⟩
    · exact ⟨ws', .tail _ hframe, hy⟩

/-- A visit begins with an empty stack. -/
theorem Sound.enter (h : Sound g s order) (hframes : s.frames = []) (hw : w < g.size)
    (hnew : s.index.getD w none = none) : Sound g (s.enter g w) order := by
  obtain ⟨hwf, hknown, hcomplete, hearlier⟩ := h
  have hvisiting : s.visiting = [] := by rw [visiting, hframes]; rfl
  have heq : s.enter g w = { s with frames := [] }.enter g w := by rw [← hframes]
  rw [heq]
  refine ⟨hwf.enter hw hnew hvisiting.symm fun frame hframe => absurd hframe List.not_mem_nil,
    hknown.enter hwf hw hnew hvisiting.symm (fun u hu => ?_) (fun x ws hframe => ?_),
    hcomplete.congr rfl, hearlier⟩
  · rw [hvisiting] at hu
    cases hu
  · rw [hframes] at hframe
    cases hframe

/-- No step breaks what holds of the search. -/
theorem Sound.step (h : Sound g s order) (hg : ∀ v, ∀ w ∈ g.next v, w < g.size) :
    Sound g (s.step g) (s.leaving ++ order) := by
  match hframes : s.frames with
  | [] =>
    rw [leaving, hframes, LowLink.step, hframes]
    exact h
  | (v, []) :: frames =>
    rw [leaving, hframes]
    exact h.leave hframes
  | (v, w :: ws) :: frames =>
    rw [leaving, hframes]
    cases hw : s.index.getD w none with
    | none =>
      have hedge := h.wellFormed.mem_next (v, w :: ws) (by simp [hframes]) w (.head _)
      exact h.descend hframes (hg v w hedge) hw
    | some i => exact h.follow hframes hw

end Step

/-! ## Finishing -/

/-- The vertices that were met. -/
def seen (s : LowLink) : Array Bool := s.index.map Option.isSome

end LowLink

/-- From the frames a depth-first search finishes the vertices in the order `result`, the last one first,
after those of `order`. -/
def FinishesAs (g : Graph) (frames : List (Nat × List Nat)) (seen : Array Bool)
    (order result : List Nat) : Prop :=
  ∀ fuel, pending frames + 2 * openEdges g (!·) seen < fuel →
    finishing g fuel frames seen order = result

namespace FinishesAs

variable {g : Graph} {frames : List (Nat × List Nat)} {seen : Array Bool} {order result ws : List Nat}
  {v w : Nat}

theorem nil : FinishesAs g [] seen order order
  | 0, hfuel => by omega
  | _ + 1, _ => rfl

theorem done (h : FinishesAs g frames seen (v :: order) result) :
    FinishesAs g ((v, []) :: frames) seen order result
  | 0, hfuel => by omega
  | fuel + 1, hfuel => by
    rw [pending, List.map_cons, List.sum_cons] at hfuel
    exact h fuel (by rw [pending]; simp only at hfuel; omega)

theorem ofSeen (h : FinishesAs g ((v, ws) :: frames) seen order result) (hw : seen.getD w true = true) :
    FinishesAs g ((v, w :: ws) :: frames) seen order result
  | 0, hfuel => by omega
  | fuel + 1, hfuel => by
    rw [finishing, if_pos hw]
    refine h fuel ?_
    simp only [pending, List.map_cons, List.sum_cons, List.length_cons] at hfuel ⊢
    omega

theorem descend (h : FinishesAs g ((w, g.next w) :: (v, ws) :: frames) (seen.setIfInBounds w true) order
    result) (hw : seen[w]? = some false) : FinishesAs g ((v, w :: ws) :: frames) seen order result
  | 0, hfuel => by omega
  | fuel + 1, hfuel => by
    have hnot : ¬seen.getD w true = true := by simp [Array.getD_eq_getD_getElem?, hw]
    rw [finishing, if_neg hnot]
    have hedges := openEdges_set g (!·) true hw rfl rfl
    refine h fuel ?_
    simp only [pending, List.map_cons, List.sum_cons, List.length_cons] at hfuel ⊢
    omega

end FinishesAs

namespace LowLink

variable {g : Graph} {s : LowLink} {v w : Nat} {order result : List Nat} {rest : List (Nat × List Nat)}

theorem getElem?_seen (hv : v < s.index.size) : s.seen[v]? = some (s.index.getD v none).isSome := by
  rw [seen, Array.getElem?_map, Array.getD_eq_getD_getElem?, Array.getElem?_eq_getElem hv]
  rfl

theorem getD_seen (hv : v < s.index.size) : s.seen.getD v true = (s.index.getD v none).isSome := by
  rw [Array.getD_eq_getD_getElem?, getElem?_seen hv, Option.getD_some]

theorem frames_enter : (s.enter g w).frames = (w, g.next w) :: s.frames := rfl

theorem seen_enter : (s.enter g w).seen = s.seen.setIfInBounds w true := Array.map_setIfInBounds

/-- How many steps may be left. -/
def remaining (g : Graph) (s : LowLink) : Nat := pending s.frames + 2 * openEdges g (!·) s.seen

/-- What a step comes to for a search that only finishes vertices. -/
structure Advances (g : Graph) (s s' : LowLink) (left : List Nat) : Prop where
  remaining_lt : s'.remaining g < s.remaining g
  finishes : ∀ rest order result, FinishesAs g (s'.frames ++ rest) s'.seen (left ++ order) result →
    FinishesAs g (s.frames ++ rest) s.seen order result
  met : ∀ u, (s.index.getD u none).isSome → (s'.index.getD u none).isSome
  met_from : ∀ u, (s'.index.getD u none).isSome → (s.index.getD u none).isSome ∨ ∃ v, u ∈ g.next v

theorem advances_leave {frames : List (Nat × List Nat)} (hframes : s.frames = (v, []) :: frames) :
    Advances g s (s.step g) s.leaving := by
  have hstep : (s.step g).frames = frames ∧ (s.step g).index = s.index := by
    rw [step_of_nil hframes]
    split
    · exact ⟨frames_leave, index_leave⟩
    · exact ⟨frames_leave, index_leave⟩
  have hseen : (s.step g).seen = s.seen := by rw [seen, hstep.2]; rfl
  constructor
  case remaining_lt =>
    rw [remaining, remaining, hseen, hstep.1, hframes]
    simp only [pending, List.map_cons, List.sum_cons]
    omega
  case finishes =>
    intro rest order result hfinishes
    rw [hstep.1, hseen, leaving, hframes] at hfinishes
    rw [hframes]
    exact hfinishes.done
  case met => exact fun u hu => hstep.2 ▸ hu
  case met_from => exact fun u hu => .inl (hstep.2 ▸ hu)

theorem advances_follow {ws : List Nat} {frames : List (Nat × List Nat)} {i : Nat}
    (hframes : s.frames = (v, w :: ws) :: frames) (hlt : w < s.index.size)
    (hw : s.index.getD w none = some i) : Advances g s (s.step g) s.leaving := by
  have hseen : (s.step g).seen = s.seen := by rw [step_of_some hframes hw]; rfl
  constructor
  case remaining_lt =>
    rw [remaining, remaining, hseen, hframes, step_of_some hframes hw]
    simp only [pending, List.map_cons, List.sum_cons, List.length_cons]
    omega
  case finishes =>
    intro rest order result hfinishes
    rw [hseen, step_of_some hframes hw, leaving, hframes] at hfinishes
    rw [hframes]
    exact hfinishes.ofSeen (by rw [getD_seen hlt, hw]; rfl)
  case met =>
    intro u hu
    rwa [step_of_some hframes hw]
  case met_from =>
    intro u hu
    rw [step_of_some hframes hw] at hu
    exact .inl hu

theorem advances_descend {ws : List Nat} {frames : List (Nat × List Nat)}
    (hframes : s.frames = (v, w :: ws) :: frames) (hlt : w < s.index.size) (hedge : w ∈ g.next v)
    (hw : s.index.getD w none = none) : Advances g s (s.step g) s.leaving := by
  have hseen : (s.step g).seen = s.seen.setIfInBounds w true := by
    rw [step_of_none hframes hw]
    exact seen_enter
  have hget : s.seen[w]? = some false := by rw [getElem?_seen hlt, hw]; rfl
  have hmet := isSome_enter (g := g) (s := { s with frames := (v, ws) :: frames }) hlt
  constructor
  case remaining_lt =>
    -- The vertex has now been met, so fewer edges are open; the freed ones pay for the new frame.
    have hedges := openEdges_set g (!·) true hget rfl rfl
    rw [remaining, remaining, hseen, hframes, step_of_none hframes hw]
    simp only [frames_enter, pending, List.map_cons, List.sum_cons, List.length_cons]
    omega
  case finishes =>
    intro rest order result hfinishes
    rw [hseen, step_of_none hframes hw, leaving, hframes] at hfinishes
    rw [hframes]
    exact hfinishes.descend hget
  case met =>
    intro u hu
    rw [step_of_none hframes hw]
    exact (hmet u).mpr (.inr hu)
  case met_from =>
    intro u hu
    rw [step_of_none hframes hw] at hu
    exact ((hmet u).mp hu).elim (fun heq => .inr ⟨v, heq ▸ hedge⟩) .inl

theorem Sound.advances (h : Sound g s order) (hg : ∀ v, ∀ w ∈ g.next v, w < g.size)
    (hne : s.frames ≠ []) : Advances g s (s.step g) s.leaving := by
  obtain ⟨frame, frames, hframes⟩ := List.exists_cons_of_ne_nil hne
  match frame with
  | (v, []) => exact advances_leave hframes
  | (v, w :: ws) =>
    have hedge : w ∈ g.next v := h.wellFormed.mem_next (v, w :: ws) (by simp [hframes]) w (.head _)
    have hlt : w < s.index.size := h.wellFormed.size_index ▸ hg v w hedge
    cases hw : s.index.getD w none with
    | none => exact advances_descend hframes hlt hedge hw
    | some i => exact advances_follow hframes hlt hw

/-! ## Runs -/

/-- What holds when a search is over that began with `s` and the vertices `order` being finished. -/
structure Searched (g : Graph) (s s' : LowLink) (order order' : List Nat) : Prop where
  sound : Sound g s' order'
  frames_eq : s'.frames = []
  finishes : ∀ rest result, FinishesAs g rest s'.seen order' result →
    FinishesAs g (s.frames ++ rest) s.seen order result
  met : ∀ u, (s.index.getD u none).isSome → (s'.index.getD u none).isSome
  met_from : ∀ u, (s'.index.getD u none).isSome → (s.index.getD u none).isSome ∨ ∃ v, u ∈ g.next v

theorem Sound.run (h : Sound g s order) (hg : ∀ v, ∀ w ∈ g.next v, w < g.size) {fuel : Nat}
    (hfuel : s.remaining g < fuel) : ∃ order', Searched g s (run g fuel s) order order' := by
  induction fuel generalizing s order with
  | zero => omega
  | succ fuel ih =>
    rw [LowLink.run]
    by_cases hframes : s.frames = []
    · rw [if_pos (List.isEmpty_iff.mpr hframes)]
      exact ⟨order, h, hframes, fun rest result hfinishes => hframes ▸ hfinishes, fun _ hu => hu,
        fun _ hu => .inl hu⟩
    · rw [if_neg fun hempty => hframes (List.isEmpty_iff.mp hempty)]
      have hadvances := h.advances hg hframes
      have hlt := hadvances.remaining_lt
      obtain ⟨order', hsearched⟩ := ih (h.step hg) (by omega)
      exact ⟨order', hsearched.sound, hsearched.frames_eq,
        fun rest result hfinishes => hadvances.finishes rest order result
          (hsearched.finishes rest result hfinishes),
        fun u hu => hsearched.met u (hadvances.met u hu),
        fun u hu => (hsearched.met_from u hu).elim (hadvances.met_from u) .inr⟩

/-- What holds when the vertices `vs` were visited. They are like edges of a vertex outside, to which
further ones may belong. -/
structure Visited (g : Graph) (vs : List Nat) (s s' : LowLink) (order order' : List Nat) : Prop where
  sound : Sound g s' order'
  frames_eq : s'.frames = []
  finishes : ∀ more result, FinishesAs g [(g.size, more)] s'.seen order' result →
    FinishesAs g [(g.size, vs ++ more)] s.seen order result
  met : ∀ u, (s.index.getD u none).isSome ∨ u ∈ vs → (s'.index.getD u none).isSome
  met_from : ∀ u, (s'.index.getD u none).isSome →
    (s.index.getD u none).isSome ∨ u ∈ vs ∨ ∃ v, u ∈ g.next v

theorem Visited.trans {us vs order'' : List Nat} {s' s'' : LowLink} {order' : List Nat}
    (h : Visited g us s s' order order') (h' : Visited g vs s' s'' order' order'') :
    Visited g (us ++ vs) s s'' order order'' where
  sound := h'.sound
  frames_eq := h'.frames_eq
  finishes more result hfinishes := by
    rw [List.append_assoc]
    exact h.finishes _ result (h'.finishes more result hfinishes)
  met u hu := by
    rw [List.mem_append, ← or_assoc] at hu
    exact h'.met u (hu.imp_left (h.met u))
  met_from u hu := by
    rw [List.mem_append]
    rcases h'.met_from u hu with hu | hu | hu
    · exact (h.met_from u hu).imp_right (Or.imp_left .inl)
    · exact .inr (.inl (.inr hu))
    · exact .inr (.inr hu)

/-- A vertex that was met before is not visited again. -/
theorem Sound.visited_of_met (h : Sound g s order) (hframes : s.frames = []) (hv : v < s.index.size)
    (hmet : (s.index.getD v none).isSome) : Visited g [v] s s order order where
  sound := h
  frames_eq := hframes
  finishes more result hfinishes := hfinishes.ofSeen (by rw [getD_seen hv, hmet])
  met u hu := hu.elim id fun hu => List.mem_singleton.mp hu ▸ hmet
  met_from u hu := .inl hu

theorem Sound.visited_of_new (h : Sound g s order) (hg : ∀ v, ∀ w ∈ g.next v, w < g.size)
    (hframes : s.frames = []) (hv : v < g.size) (hnew : s.index.getD v none = none) :
    ∃ order',
      Visited g [v] s (LowLink.run g (2 * g.edgeCount + 2) (s.enter g v)) order order' := by
  have hv' : v < s.index.size := h.wellFormed.size_index ▸ hv
  have hget : s.seen[v]? = some false := by rw [getElem?_seen hv', hnew]; rfl
  have hmet := isSome_enter (g := g) hv'
  have hfuel : (s.enter g v).remaining g < 2 * g.edgeCount + 2 := by
    have hedges := openEdges_set g (!·) true hget rfl rfl
    have hle := openEdges_le g (!·) s.seen
    rw [remaining, seen_enter, frames_enter, hframes]
    simp only [pending, List.map_cons, List.map_nil, List.sum_cons, List.sum_nil]
    omega
  obtain ⟨order', hsearched⟩ := (h.enter hframes hv hnew).run hg hfuel
  refine ⟨order', hsearched.sound, hsearched.frames_eq, fun more result hfinishes => ?_,
    fun u hu => hsearched.met u ((hmet u).mpr (hu.symm.imp_left List.mem_singleton.mp)),
    fun u hu => ?_⟩
  · have hrun := hsearched.finishes _ result hfinishes
    rw [seen_enter, frames_enter, hframes] at hrun
    exact hrun.descend hget
  · rcases hsearched.met_from u hu with hu | hu
    · exact ((hmet u).mp hu).elim (fun heq => .inr (.inl (heq ▸ .head _))) .inl
    · exact .inr (.inr hu)

theorem Sound.visit (h : Sound g s order) (hg : ∀ v, ∀ w ∈ g.next v, w < g.size)
    (hframes : s.frames = []) (hv : v < g.size) :
    ∃ order', Visited g [v] s (visit g s v) order order' := by
  rw [LowLink.visit]
  split
  · rename_i hnew
    exact h.visited_of_new hg hframes hv (Option.isNone_iff_eq_none.mp hnew)
  · rename_i hmet
    rw [Option.isNone_iff_eq_none, ← ne_eq, ← Option.isSome_iff_ne_none] at hmet
    exact ⟨order, h.visited_of_met hframes (h.wellFormed.size_index ▸ hv) hmet⟩

theorem Sound.visitAll (h : Sound g s order) (hg : ∀ v, ∀ w ∈ g.next v, w < g.size)
    (hframes : s.frames = []) (vs : List Nat) (hvs : ∀ v ∈ vs, v < g.size) :
    ∃ order', Visited g vs s (vs.foldl (LowLink.visit g) s) order order' := by
  induction vs generalizing s order with
  | nil =>
    exact ⟨order, h, hframes, fun _ _ hfinishes => hfinishes, fun _ hu => hu.resolve_right nofun,
      fun _ hu => .inl hu⟩
  | cons v vs ih =>
    obtain ⟨order1, hfirst⟩ := h.visit hg hframes (hvs v (.head _))
    obtain ⟨order', hrest⟩ := ih hfirst.sound hfirst.frames_eq fun u hu => hvs u (.tail _ hu)
    exact ⟨order', hfirst.trans hrest⟩

theorem sound_new (g : Graph) : Sound g (new g) [] := by
  have hnone : ∀ v, (new g).index.getD v none = none := fun v => by
    rw [new, Array.getD_eq_getD_getElem?, Array.getElem?_replicate]
    split <;> rfl
  have hfalse : ∀ v, (new g).onStack.getD v false = false := fun v => by
    rw [new, Array.getD_eq_getD_getElem?, Array.getElem?_replicate]
    split <;> rfl
  refine ⟨⟨Array.size_replicate, Array.size_replicate, Array.size_replicate, fun v => ?_, fun v => ?_,
    nofun, .nil, nofun, nofun, .nil, nofun⟩, ⟨nofun, nofun, nofun, nofun, nofun⟩,
    ⟨nofun, nofun, nofun, nofun, .nil⟩, .nil⟩
  · rw [hfalse]
    exact iff_of_false Bool.false_ne_true List.not_mem_nil
  · rw [hnone]
    exact iff_of_false Bool.false_ne_true (by simp [new])

end LowLink

open LowLink

/-! ## All components -/

section Components

variable {g : Graph} {vs : List Nat}

/-- The search finds the components of all vertices that it starts from or comes to, and each as soon as
the vertex from which it was entered is finished. -/
theorem lowLinkComponents_spec (hg : ∀ v, ∀ w ∈ g.next v, w < g.size) (hvs : ∀ v ∈ vs, v < g.size) :
    ∃ s : LowLink, g.lowLinkComponents vs = s.components ∧ Complete g s ∧
      (∀ v ∈ vs, v ∈ s.components.flatten) ∧
      (∀ u ∈ s.components.flatten, u ∈ vs ∨ ∃ v, u ∈ g.next v) ∧
      s.components.Pairwise (Earlier (g.finishingOrder vs)) := by
  obtain ⟨order, hsound, hframes, hfinishes, hmet, hfrom⟩ := (sound_new g).visitAll hg rfl vs hvs
  have horder : g.finishingOrder vs = order := by
    have hseen : (LowLink.new g).seen = .replicate g.size false := Array.map_replicate ..
    have hfinishing := hfinishes [] (g.size :: order) (.done .nil)
    rw [List.append_nil] at hfinishing
    have hfinishing := hfinishing (2 * (g.edgeCount + vs.length) + 2) (by
      have := openEdges_le g (!·) (LowLink.new g).seen
      simp only [pending, List.map_cons, List.map_nil, List.sum_cons, List.sum_nil]
      omega)
    rw [hseen] at hfinishing
    rw [finishingOrder, hfinishing, List.tail_cons]
  have hstack : ∀ u, u ∉ (vs.foldl (LowLink.visit g) (.new g)).stack := fun u hu => by
    obtain ⟨v, hv, -⟩ := hsound.known.down u hu
    rw [visiting, hframes] at hv
    cases hv
  have hall := hsound.wellFormed.met_iff
  refine ⟨_, rfl, hsound.complete, fun v hv => ?_, fun u hu => ?_, horder ▸ hsound.earlier⟩
  · exact ((hall v).mp (hmet v (.inr hv))).resolve_left (hstack v)
  · refine (hfrom u ((hall u).mpr (.inr hu))).resolve_left fun hnew => ?_
    have hnew := ((sound_new g).wellFormed.met_iff u).mp hnew
    exact hnew.elim List.not_mem_nil (by simp [LowLink.new])

/-- Components were found for the vertices `before`, which come first in the order. -/
structure Picked (order before : List Nat) (found : List (List Nat)) : Prop where
  earlier : found.Pairwise (Earlier order)
  picked : ∀ c ∈ found, ∃ v ∈ c, v ∈ before
  sorted : ∀ c ∈ found, c.Pairwise (· < ·)

theorem pairwise_componentOf (g back : Graph) (v : Nat) (marks : Array Mark) :
    (componentOf g back v marks).1.Pairwise (· < ·) := ascending_pairwise _

theorem Found.picked {P : Nat → Prop} {found : List (List Nat)} {marks : Array Mark}
    {before : List Nat} (after : List Nat) (h : Found g P found marks)
    (hpicked : Picked (before ++ after) before found)
    (hbefore : ∀ v ∈ before, P v → v ∈ found.flatten) :
    Picked (before ++ after) (before ++ after)
      (after.foldl (addComponent g g.transpose) (found, marks)).1 := by
  induction after generalizing before found marks with
  | nil => rwa [List.append_nil] at hpicked ⊢
  | cons v after ih =>
    have horder : before ++ v :: after = before ++ [v] ++ after := List.append_cons ..
    rw [List.foldl_cons]
    rw [horder] at hpicked ⊢
    by_cases hv : marks.getD v .closed = .open
    · obtain ⟨component, marks', heq, hadd, hself⟩ := h.add hv
      rw [addComponent, if_pos hv, heq]
      have hnew : ∀ u ∈ component, u ∉ before := fun u hu hmem => by
        have hPu : P u := ((hadd.component component (.head _) u hu u).mp hu).1.1
        have hdisjoint := (List.nodup_append.mp (List.flatten_cons ▸ hadd.nodup)).2.2
        exact hdisjoint u hu u (hbefore u hmem hPu) rfl
      refine ih hadd ⟨?_, fun c hc => ?_, fun c hc => ?_⟩ fun u hu hPu => ?_
      · refine List.pairwise_cons.mpr ⟨fun d hd => ?_, hpicked.earlier⟩
        obtain ⟨w, hw, hwBefore⟩ := hpicked.picked d hd
        refine ⟨w, hw, fun u hu => ?_⟩
        rw [← horder, List.idxOf_append_of_mem hwBefore, List.idxOf_append_of_notMem (hnew u hu)]
        exact Nat.lt_of_lt_of_le (List.idxOf_lt_length_of_mem hwBefore) (Nat.le_add_right ..)
      · rcases List.mem_cons.mp hc with rfl | hc
        · exact ⟨v, hself, by simp⟩
        · obtain ⟨u, hu, hmem⟩ := hpicked.picked c hc
          exact ⟨u, hu, List.mem_append_left _ hmem⟩
      · rcases List.mem_cons.mp hc with rfl | hc
        · have hsorted := pairwise_componentOf g g.transpose v marks
          rwa [heq] at hsorted
        · exact hpicked.sorted c hc
      · rw [List.flatten_cons, List.mem_append]
        rcases List.mem_append.mp hu with hu | hu
        · exact .inr (hbefore u hu hPu)
        · exact .inl (List.mem_singleton.mp hu ▸ hself)
    · rw [addComponent, if_neg hv]
      refine ih h ⟨hpicked.earlier, fun c hc => ?_, hpicked.sorted⟩ fun u hu hPu => ?_
      · obtain ⟨u, hu, hmem⟩ := hpicked.picked c hc
        exact ⟨u, hu, List.mem_append_left _ hmem⟩
      · rcases List.mem_append.mp hu with hu | hu
        · exact hbefore u hu hPu
        · obtain rfl := List.mem_singleton.mp hu
          exact Classical.byContradiction fun hnot => hv ((h.open_iff u).mpr ⟨hPu, hnot⟩)

instance (order : List Nat) : Std.Irrefl (Earlier order) where
  irrefl _ h := by
    obtain ⟨v, hv, hearlier⟩ := h
    exact Nat.lt_irrefl _ (hearlier v hv)

instance (order : List Nat) : Std.Antisymm (Earlier order) where
  antisymm _ _ h h' := by
    obtain ⟨v, hv, hearlier⟩ := h
    obtain ⟨w, hw, hearlier'⟩ := h'
    exact absurd (hearlier w hw) (Nat.lt_asymm (hearlier' v hv))

/-- Where no edge leaves the vertices, they are reached through themselves only. -/
theorem joins_iff_leads {P : Nat → Prop} (hg : ∀ v, ∀ w ∈ g.next v, P w) {v w : Nat} (hv : P v) :
    Joins g P v w ↔ Leads g v w :=
  ⟨fun h => Relation.ReflTransGen.mono (fun _ _ hb => hb.1) _ _ h.2,
    fun h => ⟨hv, Relation.ReflTransGen.mono (fun a b hb => ⟨hb, hg a b hb⟩) _ _ h⟩⟩

/-- A class of vertices of `cs` is one of `ds`, if these classes contain the same vertices. -/
theorem mem_of_classes {R : Nat → Nat → Prop} {cs ds : List (List Nat)} {c : List Nat}
    (hcs : ∀ c ∈ cs, ∀ v ∈ c, ∀ w, w ∈ c ↔ R v w) (hds : ∀ d ∈ ds, ∀ v ∈ d, ∀ w, w ∈ d ↔ R v w)
    (hsorted : ∀ c ∈ cs, c.Pairwise (· < ·)) (hsorted' : ∀ d ∈ ds, d.Pairwise (· < ·))
    (hne : ∀ c ∈ cs, c ≠ []) (hsub : ∀ v ∈ cs.flatten, v ∈ ds.flatten) (hc : c ∈ cs) : c ∈ ds := by
  obtain ⟨v, hv⟩ := List.exists_mem_of_ne_nil c (hne c hc)
  obtain ⟨d, hd, hvd⟩ := List.mem_flatten.mp (hsub v (List.mem_flatten.mpr ⟨c, hc, hv⟩))
  have heq : c = d := (hsorted c hc).eq_of_mem_iff (hsorted' d hd) fun w =>
    (hcs c hc v hv w).trans (hds d hd v hvd w).symm
  exact heq ▸ hd

/-- Both searches find the same components in the same order. -/
theorem lowLinkComponents_eq (hg : ∀ v, ∀ w ∈ g.next v, w ∈ vs ∧ w < g.size)
    (hvs : ∀ v ∈ vs, v < g.size) : g.lowLinkComponents vs = g.components vs := by
  obtain ⟨s, heq, hcomplete, hall, hfrom, hearlier⟩ :=
    lowLinkComponents_spec (fun v w hw => (hg v w hw).2) hvs
  obtain ⟨-, hmem, hlinked⟩ := components_spec g vs
  have hnone : Picked ([] ++ g.finishingOrder vs) [] [] := ⟨.nil, nofun, nofun⟩
  have hpicked : Picked (g.finishingOrder vs) (g.finishingOrder vs) (g.components vs) :=
    (found_nil g vs).picked (g.finishingOrder vs) hnone nofun
  have hclass : ∀ c ∈ g.components vs, ∀ v ∈ c, ∀ w, w ∈ c ↔ Leads g v w ∧ Leads g w v := by
    intro c hc v hv w
    have hin : ∀ u ∈ c, u ∈ vs ∧ u < g.size := fun u hu =>
      (hmem u).mp (List.mem_flatten.mpr ⟨c, hc, hu⟩)
    rw [hlinked c hc v hv]
    refine ⟨fun h => ⟨(joins_iff_leads hg (hin v hv)).mp h.1, (joins_iff_leads hg h.2.1).mp h.2⟩,
      fun h => ?_⟩
    have hvw := (joins_iff_leads hg (hin v hv)).mpr h.1
    exact ⟨hvw, (joins_iff_leads hg hvw.right).mpr h.2⟩
  have hne : ∀ c ∈ g.components vs, c ≠ [] := fun c hc => by
    obtain ⟨v, hv, -⟩ := hpicked.picked c hc
    exact List.ne_nil_of_mem hv
  rw [heq]
  refine hearlier.eq_of_mem_iff hpicked.earlier fun c => ⟨fun hc => ?_, fun hc => ?_⟩
  · refine mem_of_classes hcomplete.component hclass hcomplete.sorted hpicked.sorted hcomplete.ne_nil
      (fun u hu => (hmem u).mpr ?_) hc
    rcases hfrom u hu with hu | ⟨v, hv⟩
    · exact ⟨hu, hvs u hu⟩
    · exact hg v u hv
  · exact mem_of_classes hclass hcomplete.component hpicked.sorted hcomplete.sorted hne
      (fun u hu => hall u ((hmem u).mp hu).1) hc

end Components

end PatternAutomata.Graph
