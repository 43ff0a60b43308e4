import PatternAutomata.Dfa.Search
import PatternAutomata.Proofs.Dfa.Regions

/-!
# Splitting loops changes no search

While loops are copied and states are dropped, every state stays a copy of a state of the automaton
that was split: `Covers d s f` says that state `i` is a copy of state `f i`. A copy does what the
state itself does, so searching gives the same.
-/

namespace PatternAutomata.Dfa

/-! ## Copies of states -/

namespace State

@[simp] theorem transition?_mapSuccessors (s : State) (f : StateId → StateId) (c : Nat) :
    (s.mapSuccessors f).transition? c =
      (s.transition? c).map fun t => { t with target := f t.target } := by
  unfold transition? mapSuccessors
  rw [List.find?_map]
  rfl

@[simp] theorem successors_mapSuccessors (s : State) (f : StateId → StateId) :
    (s.mapSuccessors f).successors = s.successors.map f := by
  simp [successors, mapSuccessors, Function.comp_def, Option.toList_map]

theorem mapSuccessors_mapSuccessors (s : State) (f g : StateId → StateId) :
    (s.mapSuccessors f).mapSuccessors g = s.mapSuccessors fun i => g (f i) := by
  simp [mapSuccessors, Function.comp_def]

theorem mem_successors_of_transition? {s : State} {c : Nat} {t : Transition}
    (h : s.transition? c = some t) : t.target ∈ s.successors :=
  List.mem_append_right _ (List.mem_map_of_mem (List.mem_of_find?_eq_some h))

theorem mem_successors_of_entry {s : State} {e : StateId} (h : s.entry = some e) :
    e ∈ s.successors := List.mem_append_left _ (by simp [h])

/-- Only what a state leads to matters. -/
theorem mapSuccessors_congr {s : State} {f g : StateId → StateId}
    (h : ∀ i ∈ s.successors, f i = g i) : s.mapSuccessors f = s.mapSuccessors g := by
  have hentry : s.entry.map f = s.entry.map g := by
    cases he : s.entry with
    | none => rfl
    | some e => rw [Option.map_some, Option.map_some, h e (by simp [successors, he])]
  have htransitions : s.transitions.map (fun t => { t with target := f t.target }) =
      s.transitions.map fun t => { t with target := g t.target } := by
    refine List.map_congr_left fun t ht => ?_
    rw [h t.target (List.mem_append.mpr (.inr (List.mem_map.mpr ⟨t, ht, rfl⟩)))]
  simp only [mapSuccessors, hentry, htransitions]

theorem mapSuccessors_id {s : State} {f : StateId → StateId}
    (h : ∀ i ∈ s.successors, f i = i) : s.mapSuccessors f = s := by
  rw [mapSuccessors_congr h]
  simp [mapSuccessors]

end State

/-- Every state of `s` is a copy of the state of `d` that `f` names. -/
structure Covers (d : Dfa) (s : Splitting) (f : StateId → StateId) : Prop where
  states : ∀ i, (s.states.getD i {}).mapSuccessors f = d.state (f i)
  beyond : ∀ i, s.size ≤ i → f i = dead
  dead : f dead = dead
  rootStart : f s.rootStart = d.rootStart
  rootMid : f s.rootMid = d.rootMid
  /-- No edge leads out of the automaton. -/
  closed : ∀ i, ∀ j ∈ (s.states.getD i {}).successors, j < s.size
  rootStart_lt : s.rootStart < s.size
  rootMid_lt : s.rootMid < s.size
  dead_lt : Dfa.dead < s.size
  /-- The dead state is never copied. -/
  dead_of : ∀ i < s.size, f i = Dfa.dead → i = Dfa.dead

/-- The automaton with other states. -/
def withStates (d : Dfa) (s : Splitting) : Dfa :=
  { d with states := s.states, rootStart := s.rootStart, rootMid := s.rootMid }

section Search

variable {d : Dfa} {s : Splitting} {f : StateId → StateId}

theorem Covers.state (h : Covers d s f) (i : StateId) :
    d.state (f i) = ((d.withStates s).state i).mapSuccessors f := (h.states i).symm

/-- Nothing is found from a copy of the dead state. -/
theorem scan_of_dead {e : Dfa} {i : StateId} (h : e.state i = {}) (slots : Slots) (position : Nat)
    (best : Option Captures) (rest : List Char) : e.scan i slots position best rest = best := by
  cases rest with
  | nil => simp only [scan, h]
  | cons c rest => simp [scan, h, State.transition?]

theorem Splitting.getD_beyond {i : StateId} (hi : s.size ≤ i) : s.states.getD i {} = {} := by
  rw [Array.getD_eq_getD_getElem?, Array.getElem?_eq_none_iff.mpr hi]
  rfl

theorem Covers.state_dead (h : Covers d s f) : d.state Dfa.dead = {} := by
  rw [← h.beyond s.size (Nat.le_refl _), ← h.states, Splitting.getD_beyond (Nat.le_refl _)]
  rfl

theorem Covers.state_eq_of_dead (h : Covers d s f) {i : StateId} (hi : f i = Dfa.dead) :
    (d.withStates s).state i = {} := by
  have hcopy := (h.state i).symm
  rw [hi, h.state_dead] at hcopy
  generalize (d.withStates s).state i = st at hcopy
  obtain ⟨entry, slots, transitions, endAccept⟩ := st
  simp only [State.mapSuccessors, State.mk.injEq, Option.map_eq_none_iff, List.map_eq_nil_iff]
    at hcopy
  obtain ⟨rfl, rfl, rfl, rfl⟩ := hcopy
  rfl

/-- A state with edges is no copy of the dead state. -/
theorem Covers.ne_dead (h : Covers d s f) {i : StateId} (hi : s.successors i ≠ []) :
    f i ≠ Dfa.dead := fun hdead => by
  have hstate : s.states.getD i {} = {} := h.state_eq_of_dead hdead
  rw [Splitting.successors, hstate] at hi
  exact hi rfl

theorem Covers.scan (h : Covers d s f) (rest : List Char) (i : StateId) (slots : Slots)
    (position : Nat) (best : Option Captures) :
    (d.withStates s).scan i slots position best rest = d.scan (f i) slots position best rest := by
  induction rest generalizing i slots position best with
  | nil =>
    simp only [Dfa.scan, h.state]
    rfl
  | cons c rest ih =>
    simp only [Dfa.scan, h.state, State.transition?_mapSuccessors]
    cases ht : ((d.withStates s).state i).transition? c.toNat with
    | none => rfl
    | some t =>
      simp only [Option.map_some]
      by_cases hdead : t.target = Dfa.dead
      · simp only [hdead, h.dead, ite_true]
        rfl
      · by_cases hdead' : f t.target = Dfa.dead
        · simp only [hdead, hdead', ite_true, ite_false]
          exact scan_of_dead (h.state_eq_of_dead hdead') ..
        · simp only [hdead, hdead', ite_false]
          exact ih ..

theorem Covers.startState (h : Covers d s f) (before : List Char) :
    f ((d.withStates s).startState before) = d.startState before := by
  have hread : ∀ (w : List Char) (i : StateId),
      f (w.foldl (fun id c =>
        (((d.withStates s).state id).transition? c.toNat).elim id Transition.target) i) =
      w.foldl (fun id c => ((d.state id).transition? c.toNat).elim id Transition.target) (f i) := by
    intro w
    induction w with
    | nil => exact fun _ => rfl
    | cons c w ih =>
      intro i
      rw [List.foldl_cons, List.foldl_cons, ih, h.state, State.transition?_mapSuccessors]
      cases ((d.withStates s).state i).transition? c.toNat <;> rfl
  unfold Dfa.startState
  split
  · exact h.rootStart
  · simp only [← h.rootMid, ← hread, h.state]
    simp only [State.mapSuccessors, withStates]
    generalize ((Dfa.state _ _).entry : Option StateId) = entry
    cases entry <;> rfl

theorem Covers.search (h : Covers d s f) (input : List Char) (start : Nat) :
    (d.withStates s).search input start = d.search input start := by
  unfold Dfa.search
  split
  · rw [h.scan, h.startState]
    rfl
  · rfl

end Search

/-! ## Copying a loop -/

namespace Splitting

variable {d : Dfa} {s s' : Splitting} {f : StateId → StateId} {maxStates : Nat}

theorem getD_foldl_copyNumbers (base : Nat) (loop : List StateId) {l : List (StateId × Nat)}
    (hl : ∀ x ∈ l, loop[x.2]? = some x.1) {a : Array StateId}
    (ha : ∀ i, a.getD i i = i ∨ ∃ k, loop[k]? = some i ∧ a.getD i i = base + k) (i : StateId) :
    (l.foldl (fun a (id, i) => a.setIfInBounds id (base + i)) a).getD i i = i ∨
      ∃ k, loop[k]? = some i ∧
        (l.foldl (fun a (id, i) => a.setIfInBounds id (base + i)) a).getD i i = base + k := by
  induction l generalizing a with
  | nil => exact ha i
  | cons x l ih =>
    refine ih (fun y hy => hl y (by simp [hy])) fun j => ?_
    rw [Array.getD_eq_getD_getElem?, Array.getElem?_setIfInBounds]
    split
    · rename_i heq
      subst heq
      split
      · exact .inr ⟨x.2, hl x (by simp), rfl⟩
      · exact .inl rfl
    · rw [← Array.getD_eq_getD_getElem?]
      exact ha j

/-- A copied state gets a number of one of its copies, and any other keeps its own. -/
theorem copyNumbers_getD (base : Nat) (loop : List StateId) (i : StateId) :
    (copyNumbers base loop).getD i i = i ∨
      ∃ k, loop[k]? = some i ∧ (copyNumbers base loop).getD i i = base + k := by
  refine getD_foldl_copyNumbers base loop (fun x hx => List.mem_zipIdx_iff_getElem?.mp hx)
    (fun i => .inl ?_) i
  rw [Array.getD_eq_getD_getElem?]
  by_cases hi : i < base
  · rw [Array.getElem?_range]
    simp [hi]
  · rw [Array.getElem?_eq_none_iff.mpr (by simpa using hi)]
    rfl

/-- Where the states after a loop was copied come from. -/
def originAfter (f : StateId → StateId) (base : Nat) (loop : List StateId) (i : StateId) : StateId :=
  if i < base then f i else (loop[i - base]?.map f).getD dead

/-- A newNumber for the edges of a loop or into it: every state becomes itself or a copy. -/
def ToCopy (base : Nat) (loop : List StateId) (g : StateId → StateId) : Prop :=
  ∀ i, g i = i ∨ ∃ k, loop[k]? = some i ∧ g i = base + k

section ToCopy

variable {base : Nat} {loop : List StateId} {g : StateId → StateId} {i : StateId}

theorem originAfter_of_lt (hi : i < base) : originAfter f base loop i = f i := if_pos hi

theorem originAfter_add {k : Nat} (hk : loop[k]? = some i) :
    originAfter f base loop (base + k) = f i := by
  rw [originAfter, if_neg (Nat.not_lt.mpr (Nat.le_add_right ..)), Nat.add_sub_cancel_left, hk]
  rfl

theorem originAfter_of_le (hi : base + loop.length ≤ i) : originAfter f base loop i = dead := by
  rw [originAfter, if_neg (Nat.not_lt.mpr (Nat.le_trans (Nat.le_add_right ..) hi)),
    List.getElem?_eq_none_iff.mpr (Nat.le_sub_of_add_le' hi)]
  rfl

/-- A state below the old size is an old one, and one below the new size is a copy. -/
theorem old_or_copy_or_beyond (base : Nat) (loop : List StateId) (i : StateId) :
    i < base ∨ (∃ k id, i = base + k ∧ loop[k]? = some id) ∨ base + loop.length ≤ i := by
  by_cases h1 : i < base
  · exact .inl h1
  · by_cases h2 : i - base < loop.length
    · refine .inr (.inl ⟨i - base, loop[i - base], ?_, List.getElem?_eq_getElem h2⟩)
      exact (Nat.add_sub_cancel' (Nat.le_of_not_lt h1)).symm
    · exact .inr (.inr (Nat.add_le_of_le_sub' (Nat.le_of_not_lt h1) (Nat.le_of_not_lt h2)))

theorem ToCopy.origin_eq (h : ToCopy base loop g) (hi : i < base) :
    originAfter f base loop (g i) = f i := by
  rcases h i with hg | ⟨k, hk, hg⟩
  · rw [hg, originAfter_of_lt hi]
  · rw [hg, originAfter_add hk]

theorem ToCopy.lt (h : ToCopy base loop g) (hi : i < base) : g i < base + loop.length := by
  rcases h i with hg | ⟨k, hk, hg⟩
  · rw [hg]
    exact Nat.lt_of_lt_of_le hi (Nat.le_add_right ..)
  · rw [hg]
    exact Nat.add_lt_add_left (List.getElem?_eq_some_iff.mp hk).1 _

/-- A state whose edges are renamed to copies comes from where it came from. -/
theorem ToCopy.mapSuccessors_eq (h : ToCopy base loop g) {st : State}
    (hst : ∀ j ∈ st.successors, j < base) :
    (st.mapSuccessors g).mapSuccessors (originAfter f base loop) = st.mapSuccessors f := by
  rw [State.mapSuccessors_mapSuccessors]
  exact State.mapSuccessors_congr fun j hj => h.origin_eq (hst j hj)

theorem ToCopy.successors_lt (h : ToCopy base loop g) {st : State}
    (hst : ∀ j ∈ st.successors, j < base) :
    ∀ j ∈ (st.mapSuccessors g).successors, j < base + loop.length := by
  intro j hj
  rw [State.successors_mapSuccessors] at hj
  obtain ⟨j', hj', rfl⟩ := List.mem_map.mp hj
  exact h.lt (hst j' hj')

end ToCopy

/-- The states after a loop was copied: those outside it with their edges moved, then the copies. -/
theorem states_copyLoop {loop : List StateId} {entry : StateId}
    (hs : s.copyLoop maxStates loop entry = .ok s') :
    ∃ copyOf moved : StateId → StateId, ToCopy s.size loop copyOf ∧ ToCopy s.size loop moved ∧
      s'.size = s.size + loop.length ∧ s'.rootStart = moved s.rootStart ∧
      s'.rootMid = moved s.rootMid ∧
      (∀ i < s.size, s'.states.getD i {} = s.states.getD i {} ∨
        s'.states.getD i {} = (s.states.getD i {}).mapSuccessors moved) ∧
      ∀ k id, loop[k]? = some id →
        s'.states.getD (s.size + k) {} = (s.states.getD id {}).mapSuccessors copyOf := by
  unfold copyLoop at hs
  simp only at hs
  split at hs
  · cases hs
  · obtain ⟨s1, hcharge, hs⟩ := bind_eq_ok.mp hs
    cases hs
    obtain ⟨total, rfl⟩ := charge_eq_ok hcharge
    have hcopy : ToCopy s.size loop fun id => (copyNumbers s.size loop).getD id id :=
      copyNumbers_getD s.size loop
    refine ⟨_, fun id => if id = entry then (copyNumbers s.size loop).getD entry entry else id,
      hcopy, fun i => ?_, ?_, ?_, ?_, fun i hi => ?_, fun k id hk => ?_⟩
    · by_cases heq : i = entry
      · subst heq
        simpa using hcopy i
      · simp [heq]
    · simp [size, redirectRoots]
    · simp [redirectRoots]
    · simp [redirectRoots]
    · have hlt : i < s.states.size := hi
      simp only [redirectRoots, Array.getD_eq_getD_getElem?]
      rw [Array.getElem?_append_left (by simpa using hlt), Array.getElem?_mapIdx,
        Array.getElem?_eq_getElem hlt]
      simp only [Option.map_some, Option.getD_some]
      split
      · exact .inl rfl
      · exact .inr rfl
    · simp only [redirectRoots, Array.getD_eq_getD_getElem?]
      rw [Array.getElem?_append_right (by simp [size])]
      simp [size, hk]

/-- Edges lead out of the states. -/
def HaveEdges (s : Splitting) (ids : List StateId) : Prop := ∀ id ∈ ids, s.successors id ≠ []

theorem haveEdges_copyLoop {ids loop : List StateId} {entry : StateId} (h : HaveEdges s ids)
    (hs : s.copyLoop maxStates loop entry = .ok s') : HaveEdges s' ids := by
  obtain ⟨_, moved, -, -, -, -, -, hold, -⟩ := states_copyLoop hs
  intro id hid
  have hne := h id hid
  have hlt : id < s.size := Nat.lt_of_not_le fun hle => hne (successors_beyond hle)
  rcases hold id hlt with heq | heq
  · rwa [successors, heq]
  · rw [successors, heq, State.successors_mapSuccessors]
    exact fun hnil => hne (List.map_eq_nil_iff.mp hnil)

theorem covers_copyLoop {loop : List StateId} {entry : StateId} (h : Covers d s f)
    (hloop : HaveEdges s loop) (hs : s.copyLoop maxStates loop entry = .ok s') :
    Covers d s' (originAfter f s.size loop) := by
  obtain ⟨copyOf, moved, hcopy, hmoved, hsize, hstart, hmid, hold, hnew⟩ := states_copyLoop hs
  have hcases := old_or_copy_or_beyond s.size loop
  rw [← hsize] at hcases
  constructor
  case states =>
    intro i
    rcases hcases i with hi | ⟨k, id, rfl, hk⟩ | hi
    · rw [originAfter_of_lt hi, ← h.states]
      rcases hold i hi with heq | heq
      · rw [heq]
        exact State.mapSuccessors_congr fun j hj => originAfter_of_lt (h.closed i j hj)
      · rw [heq]
        exact hmoved.mapSuccessors_eq (h.closed i)
    · rw [hnew k id hk, hcopy.mapSuccessors_eq (h.closed id), originAfter_add hk, h.states]
    · rw [getD_beyond hi, originAfter_of_le (hsize ▸ hi), h.state_dead]
      rfl
  case beyond => exact fun i hi => originAfter_of_le (hsize ▸ hi)
  case dead => rw [originAfter_of_lt h.dead_lt, h.dead]
  case rootStart => rw [hstart, hmoved.origin_eq h.rootStart_lt, h.rootStart]
  case rootMid => rw [hmid, hmoved.origin_eq h.rootMid_lt, h.rootMid]
  case closed =>
    intro i
    rcases hcases i with hi | ⟨k, id, rfl, hk⟩ | hi
    · rcases hold i hi with heq | heq
      · rw [heq, hsize]
        exact fun j hj => Nat.lt_of_lt_of_le (h.closed i j hj) (Nat.le_add_right ..)
      · rw [heq, hsize]
        exact hmoved.successors_lt (h.closed i)
    · rw [hnew k id hk, hsize]
      exact hcopy.successors_lt (h.closed id)
    · rw [getD_beyond hi]
      simp [State.successors]
  case rootStart_lt =>
    rw [hstart, hsize]
    exact hmoved.lt h.rootStart_lt
  case rootMid_lt =>
    rw [hmid, hsize]
    exact hmoved.lt h.rootMid_lt
  case dead_lt =>
    rw [hsize]
    exact Nat.lt_of_lt_of_le h.dead_lt (Nat.le_add_right ..)
  case dead_of =>
    intro i hi hdead
    rcases hcases i with hlt | ⟨k, id, rfl, hk⟩ | hle
    · rw [originAfter_of_lt hlt] at hdead
      exact h.dead_of i hlt hdead
    · rw [originAfter_add hk] at hdead
      exact absurd hdead (h.ne_dead (hloop id (List.mem_of_getElem? hk)))
    · exact absurd hi (Nat.not_lt_of_le hle)

/-! ## A pass -/

/-- Every state is a copy of a state of `d`. -/
def Copies (d : Dfa) (s : Splitting) : Prop := ∃ f, Covers d s f

theorem Copies.withWork (h : Copies d s) (total : Nat) : Copies d { s with work := total } :=
  let ⟨f, hf⟩ := h
  ⟨f, hf.states, hf.beyond, hf.dead, hf.rootStart, hf.rootMid, hf.closed, hf.rootStart_lt,
    hf.rootMid_lt, hf.dead_lt, hf.dead_of⟩

/-- A loop consists of states with edges, if several states do. -/
theorem haveEdges_of_isLoop {component : List StateId} (hloop : s.isLoop component = true)
    (hseveral : 2 ≤ component.length → HaveEdges s component) : HaveEdges s component := by
  match component with
  | [] => exact nofun
  | [id] =>
    intro i hi
    rw [List.mem_singleton.mp hi]
    have hself : id ∈ (s.states.getD id {}).successors := List.contains_iff_mem.mp hloop
    exact List.ne_nil_of_mem hself
  | _ :: _ :: _ => exact hseveral (by simp)

theorem copies_treat {back : Graph} {p p' : Pass} {component : List StateId}
    (h : Copies d p.current)
    (hseveral : 2 ≤ component.length → HaveEdges p.current component)
    (hp : p.treat maxStates back component = .ok p') :
    Copies d p'.current ∧ ∀ ids, HaveEdges p.current ids → HaveEdges p'.current ids := by
  unfold Pass.treat at hp
  split at hp
  · rename_i hloop
    have hedges := haveEdges_of_isLoop hloop hseveral
    split at hp
    · cases hp
      exact ⟨h, fun _ => id⟩
    · cases hp
      exact ⟨h, fun _ => id⟩
    · obtain ⟨copied, hcopied, hp⟩ := bind_eq_ok.mp hp
      cases hp
      have hfold := foldlM_eq_ok (P := fun s => Copies d s ∧ HaveEdges s component ∧
          ∀ ids, HaveEdges p.current ids → HaveEdges s ids)
        (fun _ _ _ ⟨⟨f, hf⟩, hedges, hkeep⟩ _ hs => ⟨⟨_, covers_copyLoop hf hedges hs⟩,
          haveEdges_copyLoop hedges hs, fun ids hids => haveEdges_copyLoop (hkeep ids hids) hs⟩)
        ⟨h, hedges, fun _ => id⟩ hcopied
      exact ⟨hfold.1, hfold.2.2⟩
  · cases hp
    exact ⟨h, fun _ => id⟩

/-- A search treats the components of its first region, and goes on with the regions then left. -/
theorem search_eq_ok {back : Graph} {fuel : Nat} {p p' : Pass}
    (hp : p.search maxStates back (fuel + 1) = .ok p') :
    p.regions = [] ∧ p' = p ∨ ∃ region regions total p1, p.regions = region :: regions ∧
      ((p.current.regionGraph region).components region).foldlM (Pass.treat maxStates back)
        { p with current := { p.current with work := total }, regions } = .ok p1 ∧
      p1.search maxStates back fuel = .ok p' := by
  unfold Pass.search at hp
  split at hp
  · cases hp
    exact .inl ⟨‹_›, rfl⟩
  · obtain ⟨⟨components, current⟩, hregion, hp⟩ := bind_eq_ok.mp hp
    obtain ⟨rfl, total, rfl⟩ := regionComponents_eq_ok hregion
    obtain ⟨p1, hfold, hp⟩ := bind_eq_ok.mp hp
    exact .inr ⟨_, _, total, p1, ‹_›, hfold, hp⟩

/-- A pass searches from all states. -/
theorem pass_eq_ok {changed : Bool} (hs : s.pass maxStates = .ok (changed, s')) :
    ∃ total p, Pass.search maxStates s.graph.transpose (s.size + 1)
        { current := { s with work := total }, regions := [List.range s.size] } = .ok p ∧
      changed = p.changed ∧ s' = p.current := by
  obtain ⟨s1, hcharge, hs⟩ := bind_eq_ok.mp hs
  obtain ⟨total, rfl⟩ := charge_eq_ok hcharge
  obtain ⟨p, hp, hs⟩ := bind_eq_ok.mp hs
  cases hs
  exact ⟨total, p, hp, rfl, rfl⟩

theorem copies_search {back : Graph} (fuel : Nat) {p p' : Pass} (h : Copies d p.current)
    (hp : p.search maxStates back fuel = .ok p') : Copies d p'.current := by
  induction fuel generalizing p with
  | zero =>
    cases hp
    exact h
  | succ fuel ih =>
    obtain ⟨-, rfl⟩ | ⟨region, regions, total, p1, -, hfold, hp⟩ := search_eq_ok hp
    · exact h
    · refine ih (foldlM_eq_ok (P := fun q => Copies d q.current ∧
        ∀ ids, HaveEdges p.current ids → HaveEdges q.current ids)
        (fun q component q' ⟨hq, hkeep⟩ hc ht => ?_) ⟨h.withWork total, fun _ => id⟩ hfold).1 hp
      obtain ⟨hq', hkeep'⟩ := copies_treat hq (fun hlength => hkeep _ fun v hv =>
        successors_ne_nil_of_component hc hlength hv) ht
      exact ⟨hq', fun ids hids => hkeep' ids (hkeep ids hids)⟩

theorem copies_pass {changed : Bool} (h : Copies d s)
    (hs : s.pass maxStates = .ok (changed, s')) : Copies d s' := by
  obtain ⟨total, p, hp, -, rfl⟩ := pass_eq_ok hs
  exact copies_search _ (h.withWork total) hp

/-! ## Dropping states -/

/-- The numbers of the states that are kept. -/
def keptIds (first : Nat) (kept : List Bool) : List StateId :=
  (((List.range' first kept.length).zip kept).filter (·.2)).map (·.1)

theorem newNumbers_getElem? (next first : Nat) (kept : List Bool) (i : Nat)
    (hi : kept[i]? = some true) : ∃ k, (newNumbers next kept)[i]? = some (next + k) ∧
      (keptIds first kept)[k]? = some (first + i) := by
  induction kept generalizing next first i with
  | nil => simp at hi
  | cons b kept ih =>
    cases i with
    | zero =>
      obtain rfl : b = true := by simpa using hi
      exact ⟨0, rfl, by simp [keptIds, List.range'_succ]⟩
    | succ i =>
      have hi' : kept[i]? = some true := by simpa using hi
      cases b with
      | true =>
        obtain ⟨k, hk, hkept⟩ := ih (next + 1) (first + 1) i hi'
        refine ⟨k + 1, ?_, ?_⟩
        · simp only [newNumbers, List.getElem?_cons_succ, hk]
          congr 1
          omega
        · simp only [keptIds, List.length_cons, List.range'_succ, List.zip_cons_cons,
            List.filter_cons_of_pos, List.map_cons, List.getElem?_cons_succ]
          rw [← keptIds, hkept]
          congr 1
          omega
      | false =>
        obtain ⟨k, hk, hkept⟩ := ih next (first + 1) i hi'
        refine ⟨k, ?_, ?_⟩
        · simpa only [newNumbers, List.getElem?_cons_succ] using hk
        · simp only [keptIds, List.length_cons, List.range'_succ, List.zip_cons_cons]
          rw [List.filter_cons_of_neg (by simp), ← keptIds, hkept]
          congr 1
          omega

theorem mem_keptIds {kept : List Bool} {i : StateId} (h : i ∈ keptIds 0 kept) :
    kept[i]? = some true := by
  obtain ⟨⟨j, b⟩, hmem, rfl⟩ := List.mem_map.mp h
  obtain ⟨hmem, hb⟩ := List.mem_filter.mp hmem
  obtain ⟨n, hn⟩ := List.mem_iff_getElem?.mp hmem
  obtain ⟨h1, h2⟩ := List.getElem?_zip_eq_some.mp hn
  obtain ⟨hlt, rfl⟩ := List.getElem?_eq_some_iff.mp h1
  simp only [List.getElem_range', Nat.one_mul, Nat.zero_add]
  rw [h2]
  exact congrArg some hb

theorem nodup_keptIds (first : Nat) (kept : List Bool) : (keptIds first kept).Nodup := by
  have hsub : (keptIds first kept).Sublist (List.range' first kept.length) := by
    have := (List.filter_sublist (p := (·.2)) (l := (List.range' first kept.length).zip kept)).map
      Prod.fst
    rwa [List.map_fst_zip (by simp)] at this
  exact hsub.nodup List.nodup_range'

/-- What is kept does not lead to what is dropped. -/
structure Keeps (s : Splitting) (kept : List Bool) : Prop where
  length_eq : kept.length = s.size
  dead : kept[Dfa.dead]? = some true
  rootStart : kept[s.rootStart]? = some true
  rootMid : kept[s.rootMid]? = some true
  closed : ∀ i, kept[i]? = some true → ∀ j ∈ (s.states.getD i {}).successors, kept[j]? = some true

theorem marked_replicate_open {n i : Nat} :
    Graph.Marked (.replicate n .open) .open i ↔ i < n := by
  rw [Graph.Marked, Array.getD_eq_getD_getElem?, Array.getElem?_replicate]
  split <;> simp_all

/-- What is kept is what one comes to from the roots, and the dead state. -/
theorem reachable_spec (s : Splitting) : s.reachable.length = s.size ∧
    ∀ i, s.reachable[i]? = some true ↔ i < s.size ∧
      ((∃ root ∈ [s.rootStart, s.rootMid], s.graph.Joins (· < s.size) root i) ∨ i = Dfa.dead) := by
  have hfuel : [s.rootStart, s.rootMid].length + s.graph.openEdges (decide <| · = Graph.Mark.open)
      (.replicate s.size .open) < s.graph.edgeCount + 3 := by
    have := s.graph.openEdges_le (decide <| · = Graph.Mark.open) (.replicate s.size .open)
    simp only [List.length_cons, List.length_nil]
    omega
  obtain ⟨visited, marks, heq, -, hvisited, hsize, hmarks⟩ := Graph.visit_spec s.graph
    (.replicate s.size .open) [s.rootStart, s.rootMid] [] (by decide)
    (show _ ≠ Graph.Mark.closed by decide) hfuel
  rw [Array.size_replicate] at hsize
  have hreachable : s.reachable = (marks.setIfInBounds Dfa.dead .closed).toList.map
      fun mark => decide (mark = .closed) := by
    unfold reachable
    simp only [heq]
  refine ⟨?_, fun i => ?_⟩
  · rw [hreachable, List.length_map, Array.length_toList, Array.size_setIfInBounds, hsize]
  have hmark := hmarks i
  simp only [Graph.Joins.congr fun a => marked_replicate_open (i := a)] at hvisited
  rw [← hvisited, hreachable, List.getElem?_map, Array.getElem?_toList, Array.getElem?_setIfInBounds,
    hsize]
  rw [Array.getD_eq_getD_getElem?] at hmark
  by_cases hlt : i < s.size
  · rw [Array.getElem?_eq_getElem (hsize ▸ hlt)] at hmark ⊢
    by_cases hdead : Dfa.dead = i
    · subst hdead
      simp [hlt]
    · rw [if_neg hdead]
      have hwas : (Array.replicate s.size Graph.Mark.open).getD i .closed = .open :=
        marked_replicate_open.mpr hlt
      simp only [Option.getD_some, hwas] at hmark
      simp [hlt, Ne.symm hdead, hmark]
  · rw [Array.getElem?_eq_none_iff.mpr (hsize ▸ Nat.le_of_not_lt hlt)]
    by_cases hdead : Dfa.dead = i
    · simp [hdead, hlt]
    · simp [hdead, hlt]

theorem keeps_reachable (h : Covers d s f) : Keeps s s.reachable := by
  obtain ⟨hlength, hiff⟩ := s.reachable_spec
  have hroot : ∀ i ∈ [s.rootStart, s.rootMid], i < s.size → s.reachable[i]? = some true :=
    fun i hi hlt => (hiff i).mpr ⟨hlt, .inl ⟨i, hi, .refl hlt⟩⟩
  constructor
  case length_eq => exact hlength
  case dead => exact (hiff _).mpr ⟨h.dead_lt, .inr rfl⟩
  case rootStart => exact hroot _ (by simp) h.rootStart_lt
  case rootMid => exact hroot _ (by simp) h.rootMid_lt
  case closed =>
    intro i hi j hj
    have hlt := h.closed i j hj
    rcases ((hiff i).mp hi).2 with ⟨root, hroot, hpath⟩ | rfl
    · exact (hiff j).mpr ⟨hlt, .inl ⟨root, hroot, hpath.tail (next_graph ▸ hj) hlt⟩⟩
    · have hdead : s.states.getD Dfa.dead {} = {} := h.state_eq_of_dead h.dead
      rw [hdead] at hj
      cases hj

/-- The new number of a state, if it is kept. -/
def newNumber (kept : List Bool) (i : StateId) : StateId := (newNumbers 0 kept).toArray.getD i dead

theorem getElem?_newNumber {kept : List Bool} {i : StateId} (hi : kept[i]? = some true) :
    (keptIds 0 kept)[newNumber kept i]? = some i := by
  obtain ⟨k, hk, hid⟩ := newNumbers_getElem? 0 0 kept i hi
  simp only [newNumber, Array.getD_eq_getD_getElem?, List.getElem?_toArray, hk]
  simpa using hid

theorem newNumber_lt {kept : List Bool} {i : StateId} (hi : kept[i]? = some true) :
    newNumber kept i < (keptIds 0 kept).length :=
  (List.getElem?_eq_some_iff.mp (getElem?_newNumber hi)).1

/-- Where the states that are kept come from. -/
def originKept (f : StateId → StateId) (kept : List Bool) (k : StateId) : StateId :=
  ((keptIds 0 kept)[k]?.map f).getD dead

theorem originKept_newNumber {kept : List Bool} {i : StateId} (hi : kept[i]? = some true) :
    originKept f kept (newNumber kept i) = f i := by
  rw [originKept, getElem?_newNumber hi]
  rfl

theorem dead_mem_keptIds {kept : List Bool} (hkept : Keeps s kept) :
    (keptIds 0 kept)[Dfa.dead]? = some Dfa.dead := by
  have hdead := hkept.dead
  cases kept with
  | nil => cases hdead
  | cons b kept =>
    obtain rfl : b = true := by simpa [Dfa.dead] using hdead
    rfl

/-- The states that are kept, with what they lead to renamed. -/
theorem dropUnreachable_eq_ok (hs : s.dropUnreachable maxStates = .ok s') :
    ∃ s1 : Splitting, s.charge maxStates s.fullWork = .ok s1 ∧
      (s1.reachable.length = s1.size → s'.states = ((keptIds 0 s1.reachable).map fun i =>
        (s1.states.getD i {}).mapSuccessors (newNumber s1.reachable)).toArray) ∧
      s'.rootStart = newNumber s1.reachable s1.rootStart ∧
      s'.rootMid = newNumber s1.reachable s1.rootMid := by
  obtain ⟨s1, hcharge, hs⟩ := bind_eq_ok.mp hs
  refine ⟨s1, hcharge, ?_⟩
  generalize hkept : s1.reachable = kept at hs
  cases hs
  refine ⟨fun hlength => congrArg List.toArray ?_, rfl, rfl⟩
  have hlist : s1.states.toList = (List.range' 0 kept.length).map (s1.states.getD · {}) := by
    refine List.ext_getElem (by simp [hlength, size]) fun i h1 h2 => ?_
    simp at h1
    simp [h1]
  rw [hlist, List.zip_map_left, List.filter_map, List.map_map, keptIds, List.map_map]
  rfl

/-- There is nothing after the states that are kept; they are old ones with their edges renamed. -/
theorem getD_kept {kept : List Bool} (hstates : s'.states = ((keptIds 0 kept).map fun i =>
      (s.states.getD i {}).mapSuccessors (newNumber kept)).toArray) (k : StateId) :
    (keptIds 0 kept)[k]? = none ∧ s'.states.getD k {} = {} ∨
      ∃ i, (keptIds 0 kept)[k]? = some i ∧ kept[i]? = some true ∧
        s'.states.getD k {} = (s.states.getD i {}).mapSuccessors (newNumber kept) := by
  simp only [hstates, Array.getD_eq_getD_getElem?, List.getElem?_toArray, List.getElem?_map]
  cases hk : (keptIds 0 kept)[k]? with
  | none => exact .inl ⟨rfl, rfl⟩
  | some i => exact .inr ⟨i, rfl, mem_keptIds (List.mem_of_getElem? hk), rfl⟩

theorem covers_kept {kept : List Bool} (h : Covers d s f) (hkept : Keeps s kept)
    (hstates : s'.states = ((keptIds 0 kept).map fun i =>
      (s.states.getD i {}).mapSuccessors (newNumber kept)).toArray)
    (hstart : s'.rootStart = newNumber kept s.rootStart)
    (hmid : s'.rootMid = newNumber kept s.rootMid) : Covers d s' (originKept f kept) := by
  have hsize : s'.size = (keptIds 0 kept).length := by
    rw [size, hstates, List.size_toArray, List.length_map]
  have hcases := getD_kept hstates
  constructor
  case states =>
    intro k
    rcases hcases k with ⟨hk, hstate⟩ | ⟨i, hk, hi, hstate⟩
    · rw [hstate, originKept, hk]
      exact h.state_dead.symm
    · rw [hstate, State.mapSuccessors_mapSuccessors, originKept, hk, Option.map_some,
        Option.getD_some, ← h.states]
      exact State.mapSuccessors_congr fun j hj => originKept_newNumber (hkept.closed i hi j hj)
  case beyond =>
    intro k hk
    rw [originKept, List.getElem?_eq_none_iff.mpr (hsize ▸ hk)]
    rfl
  case dead =>
    rw [originKept, dead_mem_keptIds hkept]
    exact h.dead
  case rootStart => rw [hstart, originKept_newNumber hkept.rootStart, h.rootStart]
  case rootMid => rw [hmid, originKept_newNumber hkept.rootMid, h.rootMid]
  case closed =>
    intro k j hj
    rcases hcases k with ⟨-, hstate⟩ | ⟨i, -, hi, hstate⟩
    · rw [hstate] at hj
      cases hj
    · rw [hstate, State.successors_mapSuccessors] at hj
      obtain ⟨j', hj', rfl⟩ := List.mem_map.mp hj
      exact hsize ▸ newNumber_lt (hkept.closed i hi j' hj')
  case rootStart_lt => exact hstart ▸ hsize ▸ newNumber_lt hkept.rootStart
  case rootMid_lt => exact hmid ▸ hsize ▸ newNumber_lt hkept.rootMid
  case dead_lt => exact hsize ▸ (List.getElem?_eq_some_iff.mp (dead_mem_keptIds hkept)).1
  case dead_of =>
    -- Only the dead state is a copy of the dead one, and it is kept once.
    intro k hk hdead
    rcases hcases k with ⟨hnone, -⟩ | ⟨i, hget, hi, -⟩
    · exact absurd (hsize ▸ hk) (Nat.not_lt_of_le (List.getElem?_eq_none_iff.mp hnone))
    · rw [originKept, hget] at hdead
      have hlt : i < s.size := hkept.length_eq ▸ (List.getElem?_eq_some_iff.mp hi).1
      obtain rfl := h.dead_of i hlt hdead
      refine (List.getElem?_inj (hsize ▸ hk) (nodup_keptIds 0 kept)).mp ?_
      rw [dead_mem_keptIds hkept, hget]

theorem copies_dropUnreachable (h : Copies d s) (hs : s.dropUnreachable maxStates = .ok s') :
    Copies d s' := by
  obtain ⟨s1, hcharge, hstates, hstart, hmid⟩ := dropUnreachable_eq_ok hs
  obtain ⟨total, rfl⟩ := charge_eq_ok hcharge
  obtain ⟨f, h⟩ := h.withWork total
  have hkept := keeps_reachable h
  exact ⟨_, covers_kept h hkept (hstates hkept.length_eq) hstart hmid⟩

/-! ## All passes -/

/-- A run ends with a pass that copies nothing; after any other pass, what is unreachable is dropped. -/
theorem run_eq_ok {fuel : Nat} (hs : s.run maxStates (fuel + 1) = .ok s') :
    s.pass maxStates = .ok (false, s') ∨ ∃ s1 s2, s.pass maxStates = .ok (true, s1) ∧
      s1.dropUnreachable maxStates = .ok s2 ∧ s2.run maxStates fuel = .ok s' := by
  obtain ⟨⟨changed, s1⟩, hpass, hs⟩ := bind_eq_ok.mp hs
  cases changed with
  | false =>
    cases hs
    exact .inl hpass
  | true =>
    obtain ⟨s2, hdrop, hs⟩ := bind_eq_ok.mp hs
    split at hs
    · cases hs
    · exact .inr ⟨s1, s2, hpass, hdrop, hs⟩

theorem copies_run (fuel : Nat) (h : Copies d s) (hs : s.run maxStates fuel = .ok s') :
    Copies d s' := by
  induction fuel generalizing s with
  | zero => cases hs
  | succ fuel ih =>
    obtain hpass | ⟨s1, s2, hpass, hdrop, hs⟩ := run_eq_ok hs
    · exact copies_pass h hpass
    · exact ih (copies_dropUnreachable (copies_pass h hpass) hdrop) hs

end Splitting

/-- No edge leads out of the automaton. -/
structure Closed (d : Dfa) : Prop where
  successors : ∀ i, ∀ j ∈ (d.state i).successors, j < d.size
  rootStart : d.rootStart < d.size
  rootMid : d.rootMid < d.size
  dead_lt : dead < d.size
  state_dead : d.state dead = {}

theorem Closed.covers {d : Dfa} (h : Closed d) :
    Covers d { states := d.states, rootStart := d.rootStart, rootMid := d.rootMid }
      fun i => if i < d.size then i else dead where
  states i := by
    by_cases hi : i < d.size
    · simp only [hi, ite_true]
      exact State.mapSuccessors_id fun j hj => if_pos (h.successors i j hj)
    · simp only [hi, ite_false]
      rw [h.state_dead, Array.getD_eq_getD_getElem?,
        Array.getElem?_eq_none_iff.mpr (Nat.le_of_not_lt hi)]
      rfl
  beyond i hi := if_neg (Nat.not_lt.mpr hi)
  dead := ite_self _
  rootStart := if_pos h.rootStart
  rootMid := if_pos h.rootMid
  closed := h.successors
  rootStart_lt := h.rootStart
  rootMid_lt := h.rootMid
  dead_lt := h.dead_lt
  dead_of i hi hdead := (if_pos hi).symm.trans hdead

/-- The states of an automaton whose loops were split are copies of those that it had. -/
theorem exists_covers {d d' : Dfa} {maxStates : Nat} (h : Closed d)
    (hd : d.splitLoops maxStates = .ok d') : ∃ s f, Covers d s f ∧ d' = d.withStates s := by
  obtain ⟨s, hs, hd⟩ := bind_eq_ok.mp hd
  cases hd
  obtain ⟨f, hf⟩ := Splitting.copies_run _ ⟨_, h.covers⟩ hs
  exact ⟨s, f, hf, rfl⟩

/-- Splitting the loops of an automaton changes no search. -/
theorem search_splitLoops {d d' : Dfa} {maxStates : Nat} (h : Closed d)
    (hd : d.splitLoops maxStates = .ok d') (input : List Char) (start : Nat) :
    d'.search input start = d.search input start := by
  obtain ⟨s, f, hf, rfl⟩ := exists_covers h hd
  exact hf.search input start

end PatternAutomata.Dfa
