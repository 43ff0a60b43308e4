import PatternAutomata.Dfa.Builder
import PatternAutomata.Proofs.Interner

/-!
# What a construction discovers

`Gives x d a d'` says that a part of the construction ends with `a`, having discovered `d'` after
`d`. Whatever it does, what was discovered before keeps its numbers: `d.Extends d'`.
-/

namespace PatternAutomata

/-! ## States of the nondeterministic automaton -/

namespace Nfa.States

variable {n : Nfa} {t t' : States n} {s s' : State} {i : Nat}

theorem table_push (t : States n) (s : State) (h : t.table.find? s = none)
    (hsize : t.size < n.maxStates) : (t.push s h hsize).table = t.table.push s h := by
  cases t
  rfl

/-- Interning a state interns it in the table. -/
theorem table_intern (h : t.intern s = (.ok i, t')) :
    t'.table = (t.table.intern s).1 ∧ i = (t.table.intern s).2 := by
  unfold intern at h
  split at h
  · rename_i j hj
    obtain ⟨h1, rfl⟩ := Prod.mk.inj h
    cases h1
    rw [Interner.intern_of_find? hj]
    exact ⟨rfl, rfl⟩
  · rename_i hs
    simp only at h
    split at h
    · obtain ⟨h1, rfl⟩ := Prod.mk.inj h
      cases h1
      rw [table_push]
      unfold Interner.intern
      split
      · rename_i j hj
        rw [hs] at hj
        cases hj
      · exact ⟨rfl, rfl⟩
    · cases congrArg Prod.fst h

/-- Interning fails only for a new state that there is no room for. -/
theorem intern_eq_error {e : Bailout} (h : t.intern s = (.error e, t')) :
    t' = t ∧ t.table.find? s = none ∧ n.maxStates ≤ t.size := by
  unfold intern at h
  split at h
  · cases congrArg Prod.fst h
  · rename_i hs
    simp only at h
    split at h
    · cases congrArg Prod.fst h
    · rename_i hlt
      exact ⟨(congrArg Prod.snd h).symm, hs, Nat.le_of_not_lt hlt⟩

end Nfa.States

/-- A result that can be numbered is interned. -/
theorem TraceFinder.result_eq_ok {t t' : TraceFinder} {captures : RelativeCaptures}
    {b : Boundaries} {i : Nat} (h : t.result captures b = .ok (t', i)) :
    t'.groups = t.groups ∧ t'.results = (t.results.intern (captures.record b)).1 ∧
      i = (t.results.intern (captures.record b)).2 := by
  unfold result at h
  cases hf : t.results.find? (captures.record b) with
  | some j =>
    simp only [hf] at h
    cases h
    rw [Interner.intern_of_find? hf]
    exact ⟨rfl, rfl, rfl⟩
  | none =>
    simp only [hf] at h
    split at h
    · cases h
      exact ⟨rfl, rfl, rfl⟩
    · cases h

/-- There are no more results than there may be. -/
def TraceFinder.Fits (t : TraceFinder) : Prop :=
  t.results.size ≤ t.maxResults ∧ t.maxResults ≤ TraceFinder.maxCount

theorem TraceFinder.fits_new (groups maxResults : Nat) : (TraceFinder.new groups maxResults).Fits :=
  ⟨Nat.zero_le _, Nat.min_le_right ..⟩

theorem TraceFinder.Fits.result {t t' : TraceFinder} (h : t.Fits) {captures : RelativeCaptures}
    {b : Boundaries} {i : Nat} (ht : t.result captures b = .ok (t', i)) : t'.Fits := by
  unfold TraceFinder.result at ht
  simp only at ht
  split at ht
  · cases ht
    exact h
  · split at ht
    · rename_i hroom
      cases ht
      exact ⟨Nat.le_trans (Interner.size_intern_le ..) (Nat.succ_le_of_lt hroom), h.2⟩
    · cases ht

/-- Numbering a result fails only if there are too many. -/
theorem TraceFinder.result_eq_error {t : TraceFinder} {captures : RelativeCaptures}
    {b : Boundaries} {e : Bailout} (h : t.result captures b = .error e) :
    e = Stage.traceFinder.exceeded .traceResults := by
  unfold result at h
  simp only at h
  split at h
  · cases h
  · split at h <;> cases h
    rfl

namespace Dfa

variable {n : Nfa}

namespace Discovered

/-- The result with a number, with traces. -/
def result? (d : Discovered n) (i : Nat) : Option RelativeCaptures :=
  d.tracer.bind (·.results.get? i)

/-- The number of groups, with traces. -/
def traced? (d : Discovered n) : Option Nat := d.tracer.map (·.groups)

/-- There are no more results than there may be, if there are traces. -/
def ResultsFit (d : Discovered n) : Prop := ∀ t, d.tracer = some t → t.Fits

/-- Everything that has a number keeps it. -/
structure Extends (d d' : Discovered n) : Prop where
  states : ∀ i s, d.states.state? i = some s → d'.states.state? i = some s
  keys : ∀ i k, d.keys.get? i = some k → d'.keys.get? i = some k
  boundaries : ∀ i b, d.boundaries.get? i = some b → d'.boundaries.get? i = some b
  results : ∀ i c, d.result? i = some c → d'.result? i = some c
  traced : d'.traced? = d.traced?
  resultsFit : d.ResultsFit → d'.ResultsFit

namespace Extends

variable {d d' d'' : Discovered n}

theorem refl (d : Discovered n) : d.Extends d :=
  ⟨fun _ _ => id, fun _ _ => id, fun _ _ => id, fun _ _ => id, rfl, id⟩

theorem trans (h : d.Extends d') (h' : d'.Extends d'') : d.Extends d'' where
  states i s hi := h'.states i s (h.states i s hi)
  keys i k hi := h'.keys i k (h.keys i k hi)
  boundaries i b hi := h'.boundaries i b (h.boundaries i b hi)
  results i c hi := h'.results i c (h.results i c hi)
  traced := h'.traced.trans h.traced
  resultsFit hd := h'.resultsFit (h.resultsFit hd)

end Extends

end Discovered

namespace Build

/-! ## Running a part of the construction -/

/-- The part `x` of the construction succeeds. -/
def Gives {α : Type} (x : Build n α) (d : Discovered n) (a : α) (d' : Discovered n) : Prop :=
  x.run.run d = (.ok a, d')

section Gives

variable {α β : Type} {x : Build n α} {d d' d'' : Discovered n} {a : α} {b : β}

theorem run_bind (x : Build n α) (f : α → Build n β) (d : Discovered n) :
    (x >>= f).run.run d = match x.run.run d with
      | (.ok a, d') => (f a).run.run d'
      | (.error e, d') => (.error e, d') := by
  simp only [ExceptT.run_bind, StateT.run_bind]
  rcases x.run.run d with ⟨_ | a, d'⟩ <;> rfl

theorem gives_bind {f : α → Build n β} :
    Gives (x >>= f) d b d'' ↔ ∃ a d', Gives x d a d' ∧ Gives (f a) d' b d'' := by
  unfold Gives
  rw [run_bind]
  constructor
  · intro h
    split at h
    · rename_i a d' hx
      exact ⟨a, d', hx, h⟩
    · cases congrArg Prod.fst h
  · rintro ⟨a, d', hx, hf⟩
    rw [hx]
    exact hf

theorem gives_pure {a' : α} : Gives (pure a : Build n α) d a' d' ↔ a' = a ∧ d' = d := by
  constructor
  · intro h
    obtain ⟨h1, h2⟩ := Prod.mk.inj h
    cases h1
    exact ⟨rfl, h2.symm⟩
  · rintro ⟨rfl, rfl⟩
    rfl

theorem gives_get_bind {f : Discovered n → Build n β} :
    Gives (get >>= f) d b d' ↔ Gives (f d) d b d' := Iff.rfl

theorem not_gives_throw {e : Bailout} : ¬Gives (throw e : Build n α) d a d' := by
  intro h
  cases congrArg Prod.fst h

end Gives

variable {d d' : Discovered n}

/-! ## Numbering -/

theorem run_internState (s : Nfa.State) (states : Nfa.States n) (keys : Interner Key)
    (boundaries : Interner Boundaries) (tracer : Option TraceFinder) :
    (internState s).run.run ⟨states, keys, boundaries, tracer⟩ =
      ((states.intern s).1, ⟨(states.intern s).2, keys, boundaries, tracer⟩) := rfl

theorem internState_gives {s : Nfa.State} {i : Nat} (h : Gives (internState s) d i d') :
    d.Extends d' ∧ d'.keys = d.keys ∧ d'.states.state? i = some s := by
  obtain ⟨states, keys, boundaries, tracer⟩ := d
  rw [Gives, run_internState] at h
  obtain ⟨h1, rfl⟩ := Prod.mk.inj h
  obtain ⟨h2, rfl⟩ := Nfa.States.table_intern (Prod.ext h1 rfl)
  refine ⟨⟨fun j s' hj => ?_, fun _ _ => id, fun _ _ => id, fun _ _ => id, rfl, id⟩, rfl, ?_⟩
  · rw [Nfa.States.state?, h2]
    exact Interner.get?_intern_of_some s hj
  · rw [Nfa.States.state?, h2]
    exact Interner.get?_intern_self ..

/-- At most the state itself is new. -/
theorem internState_new {s : Nfa.State} {i : Nat} (h : Gives (internState s) d i d') :
    d'.tracer = d.tracer ∧ d'.boundaries = d.boundaries ∧
      ∀ j s', d'.states.state? j = some s' → d.states.state? j = some s' ∨ s' = s := by
  obtain ⟨states, keys, boundaries, tracer⟩ := d
  rw [Gives, run_internState] at h
  obtain ⟨h1, rfl⟩ := Prod.mk.inj h
  obtain ⟨h2, -⟩ := Nfa.States.table_intern (Prod.ext h1 rfl)
  refine ⟨rfl, rfl, fun j s' hj => ?_⟩
  rw [Nfa.States.state?, h2] at hj
  exact Interner.get?_intern hj

theorem internBoundaries_gives {b : Boundaries} {i : Nat} (h : Gives (internBoundaries b) d i d') :
    d.Extends d' ∧ d'.keys = d.keys ∧ d'.boundaries.get? i = some b := by
  obtain ⟨states, keys, boundaries, tracer⟩ := d
  obtain ⟨h1, rfl⟩ := Prod.mk.inj h
  cases h1
  exact ⟨⟨fun _ _ => id, fun _ _ => id, fun j c hj => Interner.get?_intern_of_some b hj,
    fun _ _ => id, rfl, id⟩, rfl, Interner.get?_intern_self ..⟩

theorem run_internKey (p : Plan) (k : Key) (d : Discovered n) :
    (internKey p k).run.run d =
      if (d.keys.find? k).isSome ∨ d.keys.size < p.maxStates then
        (.ok (d.keys.intern k).2, { d with keys := (d.keys.intern k).1 })
      else (.error (p.stage.exceeded .dfaSize), d) := by
  obtain ⟨states, keys, boundaries, tracer⟩ := d
  unfold internKey
  cases hk : keys.find? k with
  | some i =>
    simp only [ExceptT.run, StateT.run, hk, Option.isSome_some, true_or, ite_true,
      Interner.intern_of_find? hk]
  | none =>
    simp only [ExceptT.run, StateT.run, hk, Option.isSome_none, Bool.false_eq_true, false_or]

theorem internKey_intern {p : Plan} {k : Key} {i : StateId} (h : Gives (internKey p k) d i d') :
    ((d.keys.find? k).isSome ∨ d.keys.size < p.maxStates) ∧ i = (d.keys.intern k).2 ∧
      d' = { d with keys := (d.keys.intern k).1 } := by
  rw [Gives, run_internKey] at h
  split at h
  · rename_i hroom
    obtain ⟨h1, rfl⟩ := Prod.mk.inj h
    exact ⟨hroom, (Except.ok.inj h1).symm, rfl⟩
  · cases congrArg Prod.fst h

theorem internKey_gives {p : Plan} {k : Key} {i : StateId} (h : Gives (internKey p k) d i d') :
    d.Extends d' ∧ d'.keys.get? i = some k ∧
      (∀ j k', d'.keys.get? j = some k' → d.keys.get? j = some k' ∨ k' = k) ∧
      (d'.keys.size ≤ d.keys.size ∨ d'.keys.size ≤ p.maxStates) := by
  obtain ⟨hroom, rfl, rfl⟩ := internKey_intern h
  refine ⟨⟨fun _ _ => id, fun j c hj => Interner.get?_intern_of_some k hj, fun _ _ => id,
    fun _ _ => id, rfl, id⟩, Interner.get?_intern_self .., fun j k' => Interner.get?_intern, ?_⟩
  rcases hroom with hfound | hlt
  · obtain ⟨j, hj⟩ := Option.isSome_iff_exists.mp hfound
    rw [Interner.intern_of_find? hj]
    exact .inl (Nat.le_refl _)
  · exact .inr (Nat.le_trans (Interner.size_intern_le d.keys k) (Nat.succ_le_of_lt hlt))

/-- Interning a key fails only for a new key that there is no room for. -/
theorem internKey_eq_error {p : Plan} {k : Key} {e : Bailout}
    (h : (internKey p k).run.run d = (.error e, d')) :
    d' = d ∧ d.keys.find? k = none ∧ p.maxStates ≤ d.keys.size ∧ e = p.stage.exceeded .dfaSize := by
  rw [run_internKey] at h
  split at h
  · cases congrArg Prod.fst h
  · rename_i hfull
    obtain ⟨h1, rfl⟩ := Prod.mk.inj h
    simp only [not_or, Option.not_isSome_iff_eq_none, Nat.not_lt] at hfull
    exact ⟨rfl, hfull.1, hfull.2, (Except.error.inj h1).symm⟩

theorem run_internResult (finder : TraceFinder) (captures : RelativeCaptures) (b : Boundaries)
    (d : Discovered n) : (internResult finder captures b).run.run d =
      match finder.result captures b with
      | .ok (finder, i) => (.ok i, { d with tracer := some finder })
      | .error e => (.error e, d) := rfl

theorem internResult_gives {finder : TraceFinder} {captures : RelativeCaptures} {b : Boundaries}
    {i : Nat} (hd : d.tracer = some finder) (h : Gives (internResult finder captures b) d i d') :
    d.Extends d' ∧ d'.keys = d.keys ∧ d'.result? i = some (captures.record b) := by
  rw [Gives, run_internResult] at h
  have extend : ∀ f : TraceFinder, f.groups = finder.groups →
      (∀ j c, finder.results.get? j = some c → f.results.get? j = some c) →
      (finder.Fits → f.Fits) → d.Extends { d with tracer := some f } := by
    intro f hg hf hfits
    refine ⟨fun _ _ => id, fun _ _ => id, fun _ _ => id, fun j c hj => ?_, ?_, fun hroom t ht => ?_⟩
    · rw [Discovered.result?, hd] at hj
      exact hf j c hj
    · simp [Discovered.traced?, hd, hg]
    · cases ht
      exact hfits (hroom finder hd)
  split at h
  · rename_i f j hf
    obtain ⟨h1, rfl⟩ := Prod.mk.inj h
    cases h1
    obtain ⟨hg, hr, rfl⟩ := TraceFinder.result_eq_ok hf
    refine ⟨extend f hg (fun j c hj => ?_) fun hfits => hfits.result hf, rfl, ?_⟩
    · rw [hr]
      exact Interner.get?_intern_of_some _ hj
    · show f.results.get? _ = _
      rw [hr]
      exact Interner.get?_intern_self ..
  · cases congrArg Prod.fst h

end Build

end Dfa

end PatternAutomata
