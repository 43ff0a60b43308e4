import Mathlib.Logic.Relation
import PatternAutomata.Proofs.Dfa.SingleEntry

/-!
# Splitting ends within its budgets

Copies make an automaton larger, and dropping states makes it smaller, so the automaton itself does
not tell how far splitting has come. `Phase.next` is splitting without any bound on its steps. Every
region that is searched weighs less than the region from which it comes, so a pass ends; every pass
takes work, so there are only finitely many; and no phase ever holds more states than there may be.
-/

namespace PatternAutomata.Dfa.Splitting

/-- How far splitting has come. -/
inductive Phase where
  /-- A pass begins. -/
  | ready (s : Splitting)
  /-- The regions of the pass are searched. -/
  | searching (back : Graph) (p : Pass)
  /-- The components of a region are treated. -/
  | treating (back : Graph) (p : Pass) (components : List (List StateId))
  /-- A component is copied for each of the entries, before the other components are treated. -/
  | copying (back : Graph) (p : Pass) (loop entries : List StateId)
    (components : List (List StateId))
  /-- A pass has copied something. -/
  | collecting (s : Splitting)
  | ended (result : Except Bailout Splitting)

namespace Phase

/-- Goes on with a result, or ends if there is none. -/
def andThen {α : Type} (result : Except Bailout α) (f : α → Phase) : Phase :=
  match result with
  | .ok a => f a
  | .error e => .ended (.error e)

/-- The next phase. -/
def next (maxStates : Nat) : Phase → Option Phase
  | .ready s => some <| andThen (s.charge maxStates s.fullWork) fun s =>
    .searching s.graph.transpose { current := s, regions := [List.range s.size] }
  | .searching back p =>
    match p.regions with
    | [] => some (if p.changed then .collecting p.current else .ended (.ok p.current))
    | region :: regions => some <| andThen (p.current.regionComponents maxStates region)
      fun (components, current) => .treating back { p with current, regions } components
  | .treating back p [] => some (.searching back p)
  | .treating back p (component :: components) =>
    if p.current.isLoop component then
      match p.current.entries back component with
      | [] => some (.treating back p components)
      | [header] =>
        some (.treating back { p with regions := component.erase header :: p.regions } components)
      | _ :: others =>
        some (.copying back { p with changed := true } component others components)
    else some (.treating back p components)
  | .copying back p _ [] components => some (.treating back p components)
  | .copying back p loop (entry :: entries) components =>
    some <| andThen (p.current.copyLoop maxStates loop entry) fun current =>
      .copying back { p with current } loop entries components
  | .collecting s => some <| andThen (s.dropUnreachable maxStates) fun s =>
    if maxStates < s.size then .ended (.error tooLarge) else .ready s
  | .ended _ => none

/-- One phase comes after the other. -/
def Follows (maxStates : Nat) (a b : Phase) : Prop := a.next maxStates = some b

/-- Splitting comes from one phase to the other. -/
def Leads (maxStates : Nat) : Phase → Phase → Prop := Relation.ReflTransGen (Follows maxStates)

variable {maxStates : Nat} {a b : Phase}

@[simp] theorem andThen_ok {α : Type} (a : α) (f : α → Phase) : andThen (.ok a) f = f a := rfl

@[simp] theorem andThen_pure {α : Type} (a : α) (f : α → Phase) : andThen (pure a) f = f a := rfl

@[simp] theorem andThen_error {α : Type} (e : Bailout) (f : α → Phase) :
    andThen (.error e) f = .ended (.error e) := rfl

theorem ended_eq_andThen (result : Except Bailout Splitting) :
    .ended result = andThen result fun s => .ended (.ok s) := by
  cases result <;> rfl

theorem leads_of_next (h : a.next maxStates = some b) : Leads maxStates a b := .single h

/-- What comes to an end cannot go on forever: no phase has two that come next. -/
theorem acc_of_leads {result : Except Bailout Splitting} (h : Leads maxStates a (.ended result)) :
    Acc (fun b a => Follows maxStates a b) a := by
  induction h using Relation.ReflTransGen.head_induction_on with
  | refl => exact .intro _ nofun
  | head hab _ ih =>
    refine .intro _ fun b hb => ?_
    obtain rfl := Option.some_inj.mp (hb.symm.trans hab)
    exact ih

theorem leads_andThen {α β : Type} {x : Except Bailout α} {f : α → Except Bailout β}
    {g : α → Phase} {g' : β → Phase}
    (h : ∀ a, x = .ok a → Leads maxStates (g a) (andThen (f a) g')) :
    Leads maxStates (andThen x g) (andThen (x >>= f) g') := by
  cases x with
  | error e => exact .refl
  | ok a => exact h a rfl

end Phase

/-! ## A pass comes to its end -/

section Leads

open Phase

variable {maxStates : Nat} {back : Graph} {p p' : Pass} {s s' : Splitting}

theorem leads_copies (loop entries : List StateId) (components : List (List StateId)) :
    Leads maxStates (.copying back p loop entries components)
      (andThen (entries.foldlM (fun s entry => s.copyLoop maxStates loop entry) p.current)
        fun current => .treating back { p with current } components) := by
  induction entries generalizing p with
  | nil => exact leads_of_next rfl
  | cons entry entries ih =>
    rw [List.foldlM_cons]
    exact .trans (leads_of_next rfl) (leads_andThen fun current _ => ih (p := { p with current }))

theorem leads_treat (component : List StateId) (components : List (List StateId)) :
    Leads maxStates (.treating back p (component :: components))
      (andThen (p.treat maxStates back component) fun p => .treating back p components) := by
  unfold Pass.treat
  cases hloop : p.current.isLoop component with
  | false => exact leads_of_next (by simp [Phase.next, hloop])
  | true =>
    simp only [if_true]
    split
    · rename_i hentries
      exact leads_of_next (by simp [Phase.next, hloop, hentries])
    · rename_i header hentries
      exact leads_of_next (by simp [Phase.next, hloop, hentries])
    · rename_i first others hmany hentries
      have hnext : (Phase.treating back p (component :: components)).next maxStates =
          some (.copying back { p with changed := true } component others components) := by
        simp only [Phase.next, hloop, if_true, hentries]
      exact .trans (leads_of_next hnext) (.trans (leads_copies ..) (leads_andThen fun _ _ => .refl))

theorem leads_treatAll (components : List (List StateId)) :
    Leads maxStates (.treating back p components)
      (andThen (components.foldlM (Pass.treat maxStates back) p) (.searching back)) := by
  induction components generalizing p with
  | nil => exact leads_of_next rfl
  | cons component components ih =>
    rw [List.foldlM_cons]
    exact .trans (leads_treat ..) (leads_andThen fun _ _ => ih)

/-! ### Regions -/

/-- A search goes on until there is no region left, since the regions weigh less after each. -/
theorem leads_search (fuel : Nat) (hfuel : weight p.regions ≤ fuel) :
    Leads maxStates (.searching back p) (andThen (p.search maxStates back fuel) fun p =>
      if p.changed then .collecting p.current else .ended (.ok p.current)) := by
  induction fuel generalizing p with
  | zero =>
    cases hregions : p.regions with
    | nil => exact leads_of_next (by simp [Phase.next, hregions, Pass.search])
    | cons region regions =>
      rw [hregions, weight_cons] at hfuel
      omega
  | succ fuel ih =>
    unfold Pass.search
    cases hregions : p.regions with
    | nil => exact leads_of_next (by simp [Phase.next, hregions])
    | cons region regions =>
      have hnext : (Phase.searching back p).next maxStates = some (andThen
          (p.current.regionComponents maxStates region) fun (components, current) =>
            .treating back { p with current, regions } components) := by
        simp only [Phase.next, hregions]
      refine .trans (leads_of_next hnext) (leads_andThen fun ⟨components, current⟩ hfound =>
        .trans (leads_treatAll components) (leads_andThen fun p1 hp1 => ih ?_))
      obtain ⟨rfl, -⟩ := regionComponents_eq_ok hfound
      have hlength := length_components p.current region
      have hweight := weight_treatAll hp1
      rw [hregions, weight_cons] at hfuel
      simp only at hweight
      omega

theorem leads_pass : Leads maxStates (.ready s) (andThen (s.pass maxStates) fun (changed, s) =>
    if changed then .collecting s else .ended (.ok s)) := by
  refine .trans (leads_of_next rfl) (leads_andThen fun s1 _ => ?_)
  refine .trans (leads_search (s1.size + 1) ?_) (leads_andThen fun p _ => .refl)
  simp [weight]

end Leads

/-! ## Sizes and work -/

section Bounds

variable {maxStates work : Nat} {s s' : Splitting}

theorem work_charge (h : s.charge maxStates work = .ok s') :
    s' = { s with work := s.work + work } ∧ s'.work ≤ workLimit maxStates := by
  unfold charge at h
  split at h
  · cases h
    exact ⟨rfl, ‹_›⟩
  · cases h

theorem charge_eq_error {e : Bailout} (h : s.charge maxStates work = .error e) : e = tooLarge := by
  unfold charge at h
  split at h <;> cases h
  rfl

theorem fullWork_pos (h : 0 < s.size) : 0 < s.fullWork := by
  have hfold : ∀ (states : List State) (count : Nat), count + states.length ≤
      states.foldl (fun n state => n + state.transitions.length + 1) count := by
    intro states
    induction states with
    | nil => exact fun _ => Nat.le_refl _
    | cons state states ih =>
      intro count
      have := ih (count + state.transitions.length + 1)
      rw [List.foldl_cons, List.length_cons]
      omega
  have := hfold s.states.toList 0
  rw [Array.foldl_toList, Array.length_toList, Nat.zero_add] at this
  exact Nat.lt_of_lt_of_le h this

theorem size_copyLoop {loop : List StateId} {entry : StateId}
    (h : s.copyLoop maxStates loop entry = .ok s') :
    s.size ≤ s'.size ∧ s'.size ≤ maxStates ∧ s.work ≤ s'.work ∧ s'.work ≤ workLimit maxStates := by
  obtain ⟨_, _, -, -, hsize, -⟩ := states_copyLoop h
  rw [hsize]
  unfold copyLoop at h
  simp only at h
  split at h
  · cases h
  · rename_i hroom
    obtain ⟨s1, hcharge, h⟩ := bind_eq_ok.mp h
    obtain ⟨hs1, hwork⟩ := work_charge hcharge
    have hle : s.work ≤ s1.work := by simp [hs1]
    obtain rfl := Except.ok.inj h
    exact ⟨Nat.le_add_right .., Nat.le_of_not_lt hroom, hle, hwork⟩

/-- Dropping states keeps the dead one. -/
theorem size_dropUnreachable (hpos : 0 < s.size) (h : s.dropUnreachable maxStates = .ok s') :
    0 < s'.size ∧ s'.size ≤ s.size ∧ s.work ≤ s'.work ∧ s'.work ≤ workLimit maxStates := by
  obtain ⟨s1, hcharge, hstates, -⟩ := dropUnreachable_eq_ok h
  obtain ⟨hs1, hwork⟩ := work_charge hcharge
  have hsize1 : s1.size = s.size := by rw [hs1]; rfl
  obtain ⟨hlength, hreachable⟩ := s1.reachable_spec
  have hdead := (hreachable dead).mpr ⟨hsize1 ▸ hpos, .inr rfl⟩
  have hsize : s'.size = (keptIds 0 s1.reachable).length := by
    rw [size, hstates hlength, List.size_toArray, List.length_map]
  have hkept : (keptIds 0 s1.reachable).length ≤ s1.reachable.length := by
    have hfilter := List.length_filter_le (·.2)
      ((List.range' 0 s1.reachable.length).zip s1.reachable)
    simpa [keptIds] using hfilter
  have hwork' : s'.work = s1.work := by
    obtain ⟨s2, hcharge', h⟩ := bind_eq_ok.mp h
    rw [hcharge] at hcharge'
    cases hcharge'
    obtain rfl := Except.ok.inj h
    rfl
  refine ⟨?_, by omega, ?_, hwork' ▸ hwork⟩
  · rw [hsize]
    cases hreachable : s1.reachable with
    | nil => simp [hreachable] at hdead
    | cons b kept =>
      obtain rfl : b = true := by simpa [hreachable, dead] using hdead
      exact Nat.succ_pos _
  · rw [hwork', hs1]
    exact Nat.le_add_right ..

/-- The automaton has at most `maxSize` states, and has taken work within the limit. -/
structure Fits (maxStates maxSize minWork : Nat) (s : Splitting) : Prop where
  nonempty : 0 < s.size
  size : s.size ≤ maxSize
  minWork : minWork ≤ s.work
  work : s.work ≤ workLimit maxStates

/-- The automaton of the phase fits. If splitting fails, then since a limit is exceeded. -/
def Phase.Fits (maxStates maxSize minWork : Nat) : Phase → Prop
  | .ready s | .collecting s | .ended (.ok s) => s.Fits maxStates maxSize minWork
  | .searching _ p | .treating _ p _ | .copying _ p _ _ _ => p.current.Fits maxStates maxSize minWork
  | .ended (.error e) => e = tooLarge

theorem copyLoop_eq_error {loop : List StateId} {entry : StateId} {e : Bailout}
    (h : s.copyLoop maxStates loop entry = .error e) : e = tooLarge := by
  unfold copyLoop at h
  simp only at h
  split at h
  · cases h
    rfl
  · rcases bind_eq_error.mp h with h | ⟨s1, -, h⟩
    · exact charge_eq_error h
    · cases h

theorem regionComponents_eq_error {region : List StateId} {e : Bailout}
    (h : s.regionComponents maxStates region = .error e) : e = tooLarge := by
  rcases bind_eq_error.mp h with h | ⟨s1, -, h⟩
  · exact charge_eq_error h
  · cases h

theorem dropUnreachable_eq_error {e : Bailout} (h : s.dropUnreachable maxStates = .error e) :
    e = tooLarge := by
  rcases bind_eq_error.mp h with h | ⟨s1, -, h⟩
  · exact charge_eq_error h
  · cases h

theorem Phase.fits_andThen {α : Type} {maxSize minWork : Nat} {x : Except Bailout α} {f : α → Phase}
    (herror : ∀ e, x = .error e → e = tooLarge)
    (hok : ∀ a, x = .ok a → (f a).Fits maxStates maxSize minWork) :
    (andThen x f).Fits maxStates maxSize minWork := by
  cases x with
  | ok a => exact hok a rfl
  | error e => exact herror e rfl

theorem Fits.charge {maxSize minWork : Nat} (h : s.Fits maxStates maxSize minWork)
    (hs : s.charge maxStates work = .ok s') : s'.Fits maxStates maxSize minWork := by
  obtain ⟨rfl, hwork⟩ := work_charge hs
  exact ⟨h.nonempty, h.size, Nat.le_trans h.minWork (Nat.le_add_right ..), hwork⟩

/-- The next phase fits as well. -/
theorem Phase.Fits.next {maxSize minWork : Nat} (hmax : maxStates ≤ maxSize) {a b : Phase}
    (ha : a.Fits maxStates maxSize minWork) (hab : Follows maxStates a b) :
    b.Fits maxStates maxSize minWork := by
  unfold Follows Phase.next at hab
  split at hab
  · cases hab
    exact fits_andThen (fun _ => charge_eq_error) fun s1 h1 => Splitting.Fits.charge ha h1
  · split at hab
    · cases hab
      split <;> exact ha
    · cases hab
      refine fits_andThen (fun _ => regionComponents_eq_error) fun ⟨components, current⟩ h1 => ?_
      obtain ⟨s1, hcharge, h1⟩ := bind_eq_ok.mp h1
      cases h1
      exact Splitting.Fits.charge ha hcharge
  · cases hab
    exact ha
  · split at hab
    · split at hab <;> cases hab <;> exact ha
    · cases hab
      exact ha
  · cases hab
    exact ha
  · cases hab
    refine fits_andThen (fun _ => copyLoop_eq_error) fun current h1 => ?_
    obtain ⟨hle, hsize, hmore, hwork⟩ := size_copyLoop h1
    exact ⟨Nat.lt_of_lt_of_le ha.nonempty hle, Nat.le_trans hsize hmax,
      Nat.le_trans ha.minWork hmore, hwork⟩
  · cases hab
    refine fits_andThen (fun _ => dropUnreachable_eq_error) fun s1 h1 => ?_
    obtain ⟨hpos, hsize, hmore, hwork⟩ := size_dropUnreachable ha.nonempty h1
    split
    · rfl
    · exact ⟨hpos, Nat.le_trans hsize ha.size, Nat.le_trans ha.minWork hmore, hwork⟩
  · cases hab

theorem Phase.Fits.leads {maxSize minWork : Nat} (hmax : maxStates ≤ maxSize) {a b : Phase}
    (ha : a.Fits maxStates maxSize minWork) (hab : Leads maxStates a b) :
    b.Fits maxStates maxSize minWork := by
  induction hab with
  | refl => exact ha
  | tail _ hstep ih => exact ih.next hmax hstep

/-! ## All passes come to their end -/

/-- A pass takes work. -/
theorem work_pass {changed : Bool} (hpos : 0 < s.size)
    (h : s.pass maxStates = .ok (changed, s')) :
    0 < s'.size ∧ s.work < s'.work ∧ s'.work ≤ workLimit maxStates := by
  obtain ⟨s1, hcharge, h⟩ := bind_eq_ok.mp h
  obtain ⟨p, hp, h⟩ := bind_eq_ok.mp h
  cases h
  obtain ⟨hs1, hwork⟩ := work_charge hcharge
  have hsize : s1.size = s.size := by rw [hs1]; rfl
  have hmore : s1.work = s.work + s.fullWork := by rw [hs1]
  have hstart : Phase.Fits maxStates (max maxStates s1.size) s1.work
      (.searching s1.graph.transpose { current := s1, regions := [List.range s1.size] }) :=
    ⟨hsize ▸ hpos, Nat.le_max_right .., Nat.le_refl _, hwork⟩
  have hend := hstart.leads (Nat.le_max_left ..) (leads_search (s1.size + 1)
    (by simp [weight]))
  rw [hp, Phase.andThen_ok] at hend
  have hfits : p.current.Fits maxStates (max maxStates s1.size) s1.work := by
    split at hend <;> exact hend
  have hfull := fullWork_pos hpos
  exact ⟨hfits.nonempty, by have := hfits.minWork; omega, hfits.work⟩

/-- Passes are made until one copies nothing, since each takes some of the work that is left. -/
theorem leads_run (fuel : Nat) (hpos : 0 < s.size) (hwork : s.work ≤ workLimit maxStates)
    (hfuel : workLimit maxStates < fuel + s.work) :
    Phase.Leads maxStates (.ready s) (.ended (s.run maxStates fuel)) := by
  induction fuel generalizing s with
  | zero => omega
  | succ fuel ih =>
    rw [Phase.ended_eq_andThen, run]
    refine .trans leads_pass (Phase.leads_andThen fun ⟨changed, s1⟩ h => ?_)
    obtain ⟨hpos1, hmore1, hwork1⟩ := work_pass hpos h
    cases changed with
    | false => exact .refl
    | true =>
      refine .trans (Phase.leads_of_next rfl) (Phase.leads_andThen fun s2 hdrop => ?_)
      obtain ⟨hpos2, -, hmore2, hwork2⟩ := size_dropUnreachable hpos1 hdrop
      split
      · exact .refl
      · rw [← Phase.ended_eq_andThen]
        exact ih hpos2 hwork2 (by omega)

end Bounds

end PatternAutomata.Dfa.Splitting
