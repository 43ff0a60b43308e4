import PatternAutomata.Proofs.Compile
import PatternAutomata.Proofs.Dfa.InRange
import PatternAutomata.Proofs.Dfa.Views

/-!
# Searching without a check

`Dfa.search` reads a default wherever a table has no entry. `Dfa.search?` does the same as long as
there is an entry, and stops with `none` where there is none. So the two agree exactly if a search
never leaves the tables, and they do if all that the automaton names exists.
-/

namespace PatternAutomata.Dfa

/-! ## A search that checks -/

section Checked

variable (d : Dfa)

/-- How many slots there is room for. -/
def maxSlots : Nat := (d.states.toList.map State.slots).max?.getD 0

def applyBoundaries? (i : Nat) (captures : Captures) (position : Nat) : Option Captures := do
  let b ← d.boundaries[i]?
  if b.touched.all (· < captures.size) then return b.apply captures position
  none

def resolve? (a : Accept) (slots : Slots) (position : Nat) : Option Captures :=
  match a with
  | .slot origin b => do d.applyBoundaries? b (← slots[origin]?) position
  | .result i => do
    let results ← d.results
    return (← results[i]?).resolve position

def moveSlot? (slots : Slots) (position : Nat) (u : SlotUpdate) : Option Captures := do
  let captures ← match u.origin with
    | some origin => slots[origin]?
    | none => some (.unset d.groups)
  d.applyBoundaries? u.boundaries captures position

def moveSlots? (updates : List SlotUpdate) (slots : Slots) (position : Nat) : Option Slots :=
  if updates.length ≤ d.maxSlots then
    (updates.mapM (d.moveSlot? slots position)).map List.toArray
  else none

/-- The best match after the one that may be reported here. -/
def report? (a : Option Accept) (slots : Slots) (position : Nat) (best : Option Captures) :
    Option (Option Captures) :=
  match a with
  | some a => (d.resolve? a slots position).map some
  | none => some best

def scan? (id : StateId) (slots : Slots) (position : Nat) (best : Option Captures) :
    List Char → Option (Option Captures)
  | [] => do
    d.report? (← d.states[id]?).endAccept slots position best
  | c :: rest => do
    match (← d.states[id]?).transition? c.toNat with
    | none => some best
    | some t =>
      let best ← d.report? t.accept slots position best
      if t.target = dead then some best
      else scan? t.target (← d.moveSlots? t.updates slots position) (position + 1) best rest

def read? (id : StateId) (c : Char) : Option StateId := do
  let s ← d.states[id]?
  return (s.transition? c.toNat).elim id Transition.target

def startState? (before : List Char) : Option StateId :=
  if before.isEmpty then some d.rootStart
  else do
    let id ← (before.drop (before.length - d.leadLength)).foldlM d.read? d.rootMid
    let s ← d.states[id]?
    return s.entry.getD id

/-- The captures of the first match from `start` on; `none` if some number has no entry. -/
def search? (input : List Char) (start : Nat) : Option (Option Captures) :=
  if start ≤ input.length then do
    let id ← d.startState? (input.take start)
    d.scan? id (Array.replicate d.maxSlots (.unset d.groups)) start none (input.drop start)
  else some none

end Checked

/-! ## The checks succeed -/

section Succeeds

variable {d : Dfa} {s : State} {slots slots' : Slots} {position : Nat}

/-- The first `count` slots hold captures for all groups, and these are the ones in `slots'`. -/
def Holds (d : Dfa) (count : Nat) (slots slots' : Slots) : Prop :=
  ∀ i < count, ∃ captures : Captures, slots[i]? = some captures ∧ d.slot slots' i = captures ∧
    captures.size = 2 * d.groups

theorem getElem?_states {i : StateId} (hi : i < d.size) : d.states[i]? = some (d.state i) := by
  rw [state, Array.getD_eq_getD_getElem?, Array.getElem?_eq_getElem hi, Option.getD_some]

theorem slots_le_maxSlots {i : StateId} (hi : i < d.size) : (d.state i).slots ≤ d.maxSlots := by
  refine List.le_max?_getD_of_mem (List.mem_map_of_mem ?_)
  exact Array.mem_toList_iff.mpr (Array.mem_of_getElem? (getElem?_states hi))

theorem size_unset (d : Dfa) : (Captures.unset d.groups).size = 2 * d.groups := Array.size_replicate

theorem size_applyBoundaries (i : Nat) (captures : Captures) :
    (d.applyBoundaries i captures position).size = captures.size := Boundaries.size_apply ..

theorem HasBoundaries.applyBoundaries?_eq {i : Nat} (h : d.HasBoundaries i) {captures : Captures}
    (hsize : captures.size = 2 * d.groups) :
    d.applyBoundaries? i captures position = some (d.applyBoundaries i captures position) := by
  obtain ⟨b, hb, hbelow⟩ := h
  have htouched : b.touched.all (· < captures.size) = true := by
    rw [List.all_eq_true]
    intro i hi
    rw [hsize]
    exact decide_eq_true (hbelow.touched i hi)
  rw [applyBoundaries?, applyBoundaries, Array.getD_eq_getD_getElem?, hb, Option.bind_eq_bind,
    Option.bind_some, if_pos htouched]
  rfl

theorem AcceptInRange.resolve?_eq {a : Accept} (h : d.AcceptInRange s a)
    (hslots : d.Holds s.slots slots slots') :
    d.resolve? a slots position = some (d.resolve a slots' position) := by
  cases a with
  | slot origin b =>
    obtain ⟨-, horigin, hb⟩ := h
    obtain ⟨captures, hget, hread, hsize⟩ := hslots origin horigin
    rw [resolve?, resolve, hread, hget]
    exact hb.applyBoundaries?_eq hsize
  | result i =>
    obtain ⟨-, results, hresults, hi⟩ := h
    have hget : results[i]? = some results[i] := Array.getElem?_eq_getElem hi
    simp only [resolve?, resolve, hresults, Array.getD_eq_getD_getElem?, hget, Option.bind_eq_bind,
      Option.bind_some, Option.getD_some, Option.pure_def]

theorem report?_eq {a : Option Accept} (h : ∀ x, a = some x → d.AcceptInRange s x)
    (hslots : d.Holds s.slots slots slots') (best : Option Captures) :
    d.report? a slots position best =
      some (a.elim best fun x => some (d.resolve x slots' position)) := by
  cases a with
  | none => rfl
  | some x => simp only [report?, (h x rfl).resolve?_eq hslots, Option.map_some, Option.elim_some]

/-- Every update finds its slot and its boundaries. -/
theorem TransitionInRange.moveSlot?_eq {t : Transition} (h : d.TransitionInRange s t)
    (hslots : d.Holds s.slots slots slots') {u : SlotUpdate} (hu : u ∈ t.updates) (position : Nat) :
    ∃ captures : Captures, captures.size = 2 * d.groups ∧
      u.origin.elim (Captures.unset d.groups) (d.slot slots') = captures ∧
      d.moveSlot? slots position u = some (d.applyBoundaries u.boundaries captures position) := by
  obtain ⟨horigin, hb⟩ := h.updates u hu
  unfold moveSlot?
  cases ho : u.origin with
  | none => exact ⟨_, size_unset d, rfl, hb.applyBoundaries?_eq (size_unset d)⟩
  | some origin =>
    obtain ⟨captures, hget, hread, hsize⟩ := hslots origin (horigin origin ho)
    refine ⟨captures, hsize, hread, ?_⟩
    simp only [hget, Option.bind_eq_bind, Option.bind_some]
    exact hb.applyBoundaries?_eq hsize

/-- A transition fills the slots of its target. -/
theorem TransitionInRange.moveSlots?_eq {t : Transition} (h : d.TransitionInRange s t)
    (htarget : t.target < d.size) (hslots : d.Holds s.slots slots slots') (position : Nat) :
    ∃ moved, d.moveSlots? t.updates slots position = some moved ∧
      d.Holds (d.state t.target).slots moved (d.moveSlots t.updates slots' position) := by
  have hroom : t.updates.length ≤ d.maxSlots := h.length_updates ▸ slots_le_maxSlots htarget
  refine ⟨d.moveSlots t.updates slots' position, ?_, fun i hi => ?_⟩
  · rw [moveSlots?, if_pos hroom, moveSlots, Option.map_eq_some_iff]
    refine ⟨_, mapM_eq_some_iff.mpr (List.forall₂_map_right_iff.mpr
      (List.forall₂_same.mpr fun u hu => ?_)), rfl⟩
    obtain ⟨captures, -, hread, hmoved⟩ := h.moveSlot?_eq hslots hu position
    rw [hmoved, hread]
  · rw [← h.length_updates] at hi
    obtain ⟨captures, hsize, hread, -⟩ := h.moveSlot?_eq hslots (List.getElem_mem hi) position
    have hget : (d.moveSlots t.updates slots' position)[i]? =
        some (d.applyBoundaries t.updates[i].boundaries captures position) := by
      rw [moveSlots, List.getElem?_toArray, List.getElem?_map, List.getElem?_eq_getElem hi,
        Option.map_some, hread]
    refine ⟨_, hget, ?_, (size_applyBoundaries ..).trans hsize⟩
    rw [slot, Array.getD_eq_getD_getElem?, hget, Option.getD_some]

/-- The scan never leaves the tables. -/
theorem InRange.scan?_eq (h : d.InRange) {id : StateId} (hid : id < d.size)
    (hslots : d.Holds (d.state id).slots slots slots') (best : Option Captures) (rest : List Char) :
    d.scan? id slots position best rest = some (d.scan id slots' position best rest) := by
  induction rest generalizing id slots slots' position best with
  | nil =>
    rw [scan?, scan, getElem?_states hid, Option.bind_eq_bind, Option.bind_some]
    rw [report?_eq (h.states id hid).endAccept hslots]
    cases (d.state id).endAccept <;> rfl
  | cons c rest ih =>
    rw [scan?, scan, getElem?_states hid, Option.bind_eq_bind, Option.bind_some]
    cases ht : (d.state id).transition? c.toNat with
    | none => rfl
    | some t =>
      have hrange := (h.states id hid).transitions t (List.mem_of_find?_eq_some ht)
      have htarget := (h.states id hid).successors _ (State.mem_successors_of_transition? ht)
      simp only [report?_eq hrange.accept hslots, Option.bind_eq_bind, Option.bind_some]
      by_cases hdead : t.target = Dfa.dead
      · simp only [if_pos hdead]
        cases t.accept <;> rfl
      · obtain ⟨moved, hmoved, hholds⟩ := hrange.moveSlots?_eq htarget hslots position
        simp only [if_neg hdead, hmoved, Option.bind_some]
        rw [ih htarget hholds]
        cases t.accept <;> rfl

theorem InRange.startState?_eq (h : d.InRange) (before : List Char) :
    d.startState? before = some (d.startState before) ∧ d.startState before < d.size := by
  have hread : ∀ id < d.size, ∀ c,
      d.read? id c = some (((d.state id).transition? c.toNat).elim id Transition.target) ∧
        ((d.state id).transition? c.toNat).elim id Transition.target < d.size := by
    intro id hid c
    rw [read?, getElem?_states hid]
    refine ⟨rfl, ?_⟩
    cases ht : (d.state id).transition? c.toNat with
    | none => exact hid
    | some t => exact (h.states id hid).successors _ (State.mem_successors_of_transition? ht)
  have hfold : ∀ (w : List Char) (id : StateId), id < d.size → ∃ id' < d.size,
      w.foldlM d.read? id = some id' ∧
        w.foldl (fun id c => ((d.state id).transition? c.toNat).elim id Transition.target) id = id' := by
    intro w
    induction w with
    | nil => exact fun id hid => ⟨id, hid, rfl, rfl⟩
    | cons c w ih =>
      intro id hid
      obtain ⟨hc, hlt⟩ := hread id hid c
      rw [List.foldlM_cons, hc, List.foldl_cons]
      exact ih _ hlt
  unfold startState? startState
  split
  · exact ⟨rfl, h.rootStart.1⟩
  · obtain ⟨id, hid, hchecked, hplain⟩ :=
      hfold (before.drop (before.length - d.leadLength)) d.rootMid h.rootMid.1
    simp only [hchecked, hplain, Option.bind_eq_bind, Option.bind_some, getElem?_states hid]
    refine ⟨rfl, ?_⟩
    cases he : (d.state id).entry with
    | none => exact hid
    | some e => exact (h.states id hid).successors _ (State.mem_successors_of_entry he)

/-- A search never leaves the tables. -/
theorem InRange.search?_eq (h : d.InRange) (input : List Char) (start : Nat) :
    d.search? input start = some (d.search input start) := by
  unfold search? search
  split
  · obtain ⟨hstart, hlt⟩ := h.startState?_eq (input.take start)
    rw [hstart, Option.bind_eq_bind, Option.bind_some]
    refine h.scan?_eq hlt (fun i hi => ⟨.unset d.groups, ?_, ?_, size_unset d⟩) none _
    · rw [Array.getElem?_replicate, if_pos (Nat.lt_of_lt_of_le hi (slots_le_maxSlots hlt))]
    · cases i <;> rfl
  · rfl

end Succeeds

/-- Whatever is built for a pattern, with slots or with traces, names nothing but what exists, and
neither does it when its loops were split. So no search leaves the tables. -/
theorem inRange_of_parse {pattern : String} {flags : Flags} {budget : Budget}
    {properties : PropertyLookup} {t : Tree} {multiline sticky : Bool} {n : Nfa}
    {states : Nfa.States n} {d : Dfa}
    (ht : Pattern.parse pattern flags budget.clamp properties = .ok t)
    (hn : Nfa.ofTree t multiline budget.clamp.maxNfaSize = .ok n)
    (hd : (tracking states sticky budget.clamp).1 = .ok d ∨
      (tracing states sticky budget.clamp).1 = .ok d) :
    ∀ d', d' = d ∨ (∃ maxStates, d.splitLoops maxStates = .ok d') →
      d'.InRange ∧ ∀ input start, d'.search? input start = some (d'.search input start) := by
  have hthreads : budget.clamp.maxThreads ≤ 255 := Nat.min_le_right ..
  obtain ⟨ends, hnumbered⟩ := Pattern.numbered_parse ht
  obtain rfl := Nfa.tree_of_ofTree hn
  have hrange : d.InRange := by
    rcases hd with hd | hd
    · obtain ⟨found, hbuilt, hext⟩ := Build.exists_built (Prod.ext hd rfl)
      exact hbuilt.inRange (hext.resultsFit nofun) hnumbered hthreads
    · obtain ⟨found, hbuilt, hext⟩ := Build.exists_built (Prod.ext hd rfl)
      refine hbuilt.inRange (hext.resultsFit fun finder hfinder => ?_) hnumbered hthreads
      cases hfinder
      exact TraceFinder.fits_new ..
  have hsplit : ∀ d', d' = d ∨ (∃ maxStates, d.splitLoops maxStates = .ok d') → d'.InRange := by
    rintro d' (rfl | ⟨maxStates, hd'⟩)
    · exact hrange
    · exact hrange.splitLoops hd'
  exact fun d' hd' => ⟨hsplit d' hd', fun input start => (hsplit d' hd').search?_eq input start⟩

set_option maxRecDepth 100000 in
/-- To look behind, a state reads the character before the search. All that the automaton names
exists, before its loop is split and afterwards. -/
theorem inRange_of_parse_lookBehind :
    let budget : Budget := {}
    ∃ (t : Tree) (n : Nfa) (d d' : Dfa),
      Pattern.parse "(?<=a)(?:(b)|c)*" {} budget.clamp Property.standard = .ok t ∧
      Nfa.ofTree t false budget.clamp.maxNfaSize = .ok n ∧
      (tracking (.empty : Nfa.States n) false budget.clamp).1 = .ok d ∧
      d.splitLoops 100 = .ok d' ∧ d.InRange ∧ d'.InRange ∧
      (d.state d.rootMid).transitions.length = 3 ∧
      d'.search? "abc".toList 1 = some (some #[some 1, some 3, none, none]) := by
  intro budget
  obtain ⟨t, ht⟩ := exists_ok
    (x := Pattern.parse "(?<=a)(?:(b)|c)*" {} budget.clamp Property.standard) (by decide +kernel)
  obtain ⟨n, hn⟩ := exists_ok (x := Nfa.ofTree t false budget.clamp.maxNfaSize)
    (of_toOption (P := fun t => (Nfa.ofTree t false budget.clamp.maxNfaSize).isOk)
      (by decide +kernel) ht)
  obtain ⟨d, hd⟩ := exists_ok (of_toOption (P := fun t =>
    ∀ n ∈ (Nfa.ofTree t false budget.clamp.maxNfaSize).toOption,
      (tracking (.empty : Nfa.States n) false budget.clamp).1.isOk)
    (by decide +kernel) ht n (by rw [hn]; rfl))
  obtain ⟨hlead, hok, hsearch⟩ := of_toOption (P := fun t =>
    ∀ n ∈ (Nfa.ofTree t false budget.clamp.maxNfaSize).toOption,
      ∀ d ∈ (tracking (.empty : Nfa.States n) false budget.clamp).1.toOption,
        (d.state d.rootMid).transitions.length = 3 ∧ (d.splitLoops 100).isOk ∧
          d.search "abc".toList 1 = some #[some 1, some 3, none, none])
    (by decide +kernel) ht n (by rw [hn]; rfl) d (by rw [hd]; rfl)
  obtain ⟨d', hd'⟩ := exists_ok hok
  have hrange := inRange_of_parse ht hn (.inl hd)
  refine ⟨t, n, d, d', ht, hn, hd, hd', (hrange d (.inl rfl)).1, (hrange d' (.inr ⟨_, hd'⟩)).1,
    hlead, ?_⟩
  rw [(hrange d' (.inr ⟨_, hd'⟩)).2, search_splitLoops (hrange d (.inl rfl)).1.closed hd', hsearch]

end PatternAutomata.Dfa
