import Mathlib.Data.List.Nodup
import Mathlib.Data.List.Perm.Subperm
import PatternAutomata.Proofs.Dfa.Views

/-!
# Staying within closed views

A construction that starts within closed views stays within them, also when it fails. If there is
room for all the states that occur in the views, it never meets a state without number; and if there
is also room for the views, a construction with slots does not fail at all.
-/

namespace PatternAutomata

theorem Interner.nodup {α : Type} [DecidableEq α] [Coded α] (t : Interner α) :
    t.items.toList.Nodup := by
  refine List.nodup_iff_getElem?_ne_getElem?.mpr fun i j hij hj heq => ?_
  have hget : t.get? j = some t.items[j] := Array.getElem?_eq_getElem (by simpa using hj)
  have hsame : t.get? i = t.get? j := by simpa [get?] using heq
  exact Nat.ne_of_lt hij (get?_inj (hsame.trans hget) hget)

theorem Interner.find?_eq_none_iff {α : Type} [DecidableEq α] [Coded α] {t : Interner α} {a : α} :
    t.find? a = none ↔ a ∉ t.items.toList := by
  rw [Option.eq_none_iff_forall_ne_some, Array.mem_toList_iff, Array.mem_iff_getElem?]
  simp only [ne_eq, find?_eq_some_iff, get?, not_exists]

namespace Dfa

variable {n : Nfa}

/-- The state occurs in one of the views. -/
def View.Holds (U : View → Prop) (s : Nfa.State) : Prop :=
  ∃ ss injecting tracker, U (.search ss injecting tracker) ∧ s ∈ ss

/-- Everything discovered belongs to the views. -/
structure Discovered.Within (U : View → Prop) (traced : Bool) (d : Discovered n) : Prop where
  states : ∀ i s, d.states.state? i = some s → View.Holds U s
  keys : ∀ i k, d.keys.get? i = some k → ∃ v, d.view k = some v ∧ U v
  plain : traced = false → ∀ i k, d.keys.get? i = some k → k.Plain
  noBoundaries : d.boundaries.get? Build.noBoundaries = some .empty
  tracer : d.tracer.isSome = traced

theorem Discovered.Within.traced?_eq_none {U : View → Prop} {traced : Bool} {d : Discovered n}
    (hd : d.Within U traced) (h : traced = false) : d.traced? = none := by
  have htracer : d.tracer = none := by simpa [h] using hd.tracer
  rw [Discovered.traced?, htracer, Option.map_none]

/-- There is room for all states that occur in the views and, without traces, for the views. -/
structure View.Room (n : Nfa) (U : View → Prop) (p : Plan) (traced : Bool) : Prop where
  closed : View.Closed n p.sticky p.maxThreads U
  states : ∀ ss : List Nfa.State, ss.Nodup → (∀ s ∈ ss, View.Holds U s) → ss.length ≤ n.maxStates
  keys : traced = false → ∀ vs : List View, vs.Nodup → (∀ v ∈ vs, U v) → vs.length ≤ p.maxStates
  stage : traced = true → p.stage = .traceFinder

namespace Build

variable {U : View → Prop} {p : Plan} {traced : Bool} {d d' : Discovered n}

/-- The part of the construction stays within the views, and if it fails, then since traces exceed
a limit. -/
def Stays (U : View → Prop) (traced : Bool) {α : Type} (x : Build n α) (d : Discovered n) : Prop :=
  (x.run.run d).2.Within U traced ∧
    ∀ e, (x.run.run d).1 = .error e → traced = true ∧ e.stage = .traceFinder

section Stays

variable {α β γ : Type} {x : Build n α}

theorem stays_of_gives {a : α} (h : Gives x d a d') (hd : d'.Within U traced) :
    Stays U traced x d := by
  rw [Stays, h]
  exact ⟨hd, nofun⟩

theorem stays_pure {a : α} (hd : d.Within U traced) : Stays U traced (pure a) d :=
  stays_of_gives (gives_pure.mpr ⟨rfl, rfl⟩) hd

theorem stays_bind {f : α → Build n β} (hx : Stays U traced x d)
    (hf : ∀ a d', Gives x d a d' → d'.Within U traced → Stays U traced (f a) d') :
    Stays U traced (x >>= f) d := by
  unfold Stays at hx ⊢
  rw [run_bind]
  rcases hr : x.run.run d with ⟨e | a, d'⟩
  · rw [hr] at hx
    exact ⟨hx.1, fun e' he' => hx.2 e' (by cases he'; rfl)⟩
  · rw [hr] at hx
    exact hf a d' hr hx.1

theorem stays_bind_of_gives {a : α} {f : α → Build n β} (hx : Gives x d a d')
    (hf : Stays U traced (f a) d') : Stays U traced (x >>= f) d := by
  rw [Stays, run_bind, hx]
  exact hf

theorem stays_get_bind {f : Discovered n → Build n β} (h : Stays U traced (f d) d) :
    Stays U traced (get >>= f) d := h

theorem stays_foldlM {f : β → γ → Build n β} {as : List γ} {b : β}
    (hf : ∀ b a d, a ∈ as → d.Within U traced → Stays U traced (f b a) d)
    (hd : d.Within U traced) : Stays U traced (as.foldlM f b) d := by
  induction as generalizing b d with
  | nil => exact stays_pure hd
  | cons a as ih =>
    rw [List.foldlM_cons]
    exact stays_bind (hf b a d (by simp) hd) fun b' d' _ hd' =>
      ih (fun b a d ha => hf b a d (by simp [ha])) hd'

end Stays

/-! ## Numbering -/

theorem stays_internState (hr : View.Room n U p traced) (hd : d.Within U traced) {s : Nfa.State}
    (hs : View.Holds U s) : Stays U traced (internState s) d := by
  rcases hrun : (internState s).run.run d with ⟨e | i, d'⟩
  · -- There is room, since the states discovered and `s` all occur in the views.
    obtain ⟨states, keys, boundaries, tracer⟩ := d
    rw [run_internState] at hrun
    obtain ⟨h1, -⟩ := Prod.mk.inj hrun
    obtain ⟨-, hnew, hfull⟩ := Nfa.States.intern_eq_error (Prod.ext h1 rfl)
    have hlength := hr.states (s :: states.table.items.toList)
      (List.nodup_cons.mpr ⟨Interner.find?_eq_none_iff.mp hnew, Interner.nodup _⟩) fun s' hs' => by
        rcases List.mem_cons.mp hs' with rfl | hs'
        · exact hs
        · obtain ⟨j, hj⟩ := List.mem_iff_getElem?.mp hs'
          exact hd.states j s' (by simpa [Nfa.States.state?, Interner.get?] using hj)
    rw [List.length_cons, Array.length_toList] at hlength
    exact absurd (Nat.lt_of_lt_of_le hlength hfull) (Nat.lt_irrefl _)
  · obtain ⟨he, hk, -⟩ := internState_gives hrun
    obtain ⟨htracer, hboundaries, hnew⟩ := internState_new hrun
    refine stays_of_gives hrun ⟨fun j s' hj => ?_, fun j k hj => ?_, fun ht j k hj => ?_, ?_, ?_⟩
    · rcases hnew j s' hj with hj | rfl
      · exact hd.states j s' hj
      · exact hs
    · obtain ⟨v, hv, hU⟩ := hd.keys j k (hk ▸ hj)
      exact ⟨v, Discovered.view_mono hv he, hU⟩
    · exact hd.plain ht j k (hk ▸ hj)
    · exact hboundaries ▸ hd.noBoundaries
    · exact htracer ▸ hd.tracer

theorem nodup_of_forall₂ {α β : Type} {R : α → β → Prop} {as : List α} {bs : List β}
    (h : List.Forall₂ R as bs) (hinj : ∀ a ∈ as, ∀ a' ∈ as, ∀ b, R a b → R a' b → a = a')
    (has : as.Nodup) : bs.Nodup := by
  induction h with
  | nil => exact .nil
  | @cons a b as bs hab hrest ih =>
    obtain ⟨hnot, hnodup⟩ := List.nodup_cons.mp has
    refine List.nodup_cons.mpr ⟨fun hb => ?_, ih (fun a ha a' ha' => hinj a (by simp [ha]) a'
      (by simp [ha'])) hnodup⟩
    obtain ⟨a', ha', hab'⟩ := exists_of_mem_right hrest hb
    rw [hinj a (by simp) a' (by simp [ha']) b hab hab'] at hnot
    exact hnot ha'

/-- With slots there is room for one key for each view. -/
theorem size_keys_lt (hr : View.Room n U p false) (hd : d.Within U false) {k : Key} {v : View}
    (hv : d.view k = some v) (hU : U v) (hplain : k.Plain) (hnew : d.keys.find? k = none) :
    d.keys.size < p.maxStates := by
  have hkeys : ∀ k' ∈ k :: d.keys.items.toList, ∃ v, d.view k' = some v ∧ U v ∧ k'.Plain := by
    intro k' hk'
    rcases List.mem_cons.mp hk' with rfl | hk'
    · exact ⟨v, hv, hU, hplain⟩
    · obtain ⟨j, hj⟩ := List.mem_iff_getElem?.mp hk'
      have hget : d.keys.get? j = some k' := by simpa [Interner.get?] using hj
      obtain ⟨v, hv, hU⟩ := hd.keys j k' hget
      exact ⟨v, hv, hU, hd.plain rfl j k' hget⟩
  obtain ⟨vs, hvs⟩ : ∃ vs, List.Forall₂ (fun k v => d.view k = some v) (k :: d.keys.items.toList) vs := by
    generalize k :: d.keys.items.toList = ks at hkeys
    induction ks with
    | nil => exact ⟨[], .nil⟩
    | cons k ks ih =>
      obtain ⟨v, hv, -⟩ := hkeys k (by simp)
      obtain ⟨vs, hvs⟩ := ih fun k' hk' => hkeys k' (by simp [hk'])
      exact ⟨v :: vs, .cons hv hvs⟩
  have hnodup := nodup_of_forall₂ hvs (fun k₁ h₁ k₂ h₂ v hv₁ hv₂ => by
    obtain ⟨_, -, -, hp₁⟩ := hkeys k₁ h₁
    obtain ⟨_, -, -, hp₂⟩ := hkeys k₂ h₂
    exact Discovered.view_inj hv₁ hv₂ hp₁ hp₂)
    (List.nodup_cons.mpr ⟨Interner.find?_eq_none_iff.mp hnew, Interner.nodup _⟩)
  have hlength := hr.keys rfl vs hnodup fun v hv => by
    obtain ⟨k', hk', hview⟩ := exists_of_mem_right hvs hv
    obtain ⟨v', hv', hU, -⟩ := hkeys k' hk'
    rwa [Option.some_inj.mp (hview.symm.trans hv')]
  rwa [← hvs.length_eq, List.length_cons, Array.length_toList] at hlength

theorem stays_internKey (hr : View.Room n U p traced) (hd : d.Within U traced) {k : Key} {v : View}
    (hv : d.view k = some v) (hU : U v) (hplain : traced = false → k.Plain) :
    Stays U traced (internKey p k) d := by
  rcases hrun : (internKey p k).run.run d with ⟨e | i, d'⟩
  · obtain ⟨rfl, hnew, hfull, rfl⟩ := internKey_eq_error hrun
    rw [Stays, hrun]
    refine ⟨hd, fun e he => ?_⟩
    cases he
    cases traced with
    | true => exact ⟨rfl, hr.stage rfl⟩
    | false =>
      exact absurd hfull (Nat.not_le_of_lt (size_keys_lt hr hd hv hU (hplain rfl) hnew))
  · obtain ⟨he, -, hnew, -⟩ := internKey_gives hrun
    obtain ⟨-, -, rfl⟩ := internKey_intern hrun
    refine stays_of_gives hrun ⟨hd.states, fun j k' hj => ?_, fun htraced j k' hj => ?_,
      hd.noBoundaries, hd.tracer⟩
    · rcases hnew j k' hj with hj | rfl
      · obtain ⟨v', hv', hU'⟩ := hd.keys j k' hj
        exact ⟨v', Discovered.view_mono hv' he, hU'⟩
      · exact ⟨v, Discovered.view_mono hv he, hU⟩
    · rcases hnew j k' hj with hj | rfl
      · exact hd.plain htraced j k' hj
      · exact hplain htraced

theorem stays_internBoundaries (hd : d.Within U traced) (b : Boundaries) :
    Stays U traced (internBoundaries b) d := by
  have hrun : Gives (internBoundaries b) d (d.boundaries.intern b).2
      { d with boundaries := (d.boundaries.intern b).1 } := rfl
  exact stays_of_gives hrun
    ⟨hd.states, hd.keys, hd.plain, Interner.get?_intern_of_some b hd.noBoundaries, hd.tracer⟩

theorem stays_internResult (hd : d.Within U traced) {finder : TraceFinder}
    (hfinder : d.tracer = some finder) (captures : RelativeCaptures) (b : Boundaries) :
    Stays U traced (internResult finder captures b) d := by
  have htraced : traced = true := by rw [← hd.tracer, hfinder, Option.isSome_some]
  rw [Stays, run_internResult]
  cases hf : finder.result captures b with
  | ok r =>
    refine ⟨⟨hd.states, hd.keys, hd.plain, hd.noBoundaries, htraced.symm⟩, fun e he => ?_⟩
    cases he
  | error e =>
    refine ⟨hd, fun e' he' => ⟨htraced, ?_⟩⟩
    cases he'
    rw [TraceFinder.result_eq_error hf]
    rfl

/-! ## Threads -/

theorem stays_initialThread (hr : View.Room n U p traced) (hd : d.Within U traced)
    {context : Context} (hs : View.Holds U (n.initial context)) :
    Stays U traced (initialThread context) d :=
  stays_bind (stays_internState hr hd hs) fun _ _ _ hd' =>
    stays_get_bind (stays_pure hd')

theorem stays_root (hr : View.Room n U p traced) (hd : d.Within U traced) {tracker : BitSet}
    {atStart : Bool}
    (hU : U (.search [n.initial (n.contextOf atStart tracker)] (!p.sticky) tracker)) :
    Stays U traced (root p tracker atStart) d := by
  refine stays_bind (stays_initialThread hr hd ⟨_, _, _, hU, by simp; rfl⟩) fun t d' ht hd' => ?_
  obtain ⟨-, -, -, hs, hc⟩ := initialThread_gives ht
  refine stays_internKey hr hd' (Discovered.view_search_iff.mpr ⟨_, .cons hs .nil, rfl⟩) hU ?_
  intro htraced t' ht'
  rw [List.mem_singleton.mp ht', hc, hd'.traced?_eq_none htraced]
  rfl

theorem stays_accept (hd : d.Within U traced) (slot : Nat) (t : Thread) (b : Boundaries) :
    Stays U traced (accept slot t b) d := by
  unfold accept
  refine stays_get_bind ?_
  cases htracer : d.tracer with
  | none => exact stays_bind (stays_internBoundaries hd b) fun _ _ _ hd' => stays_pure hd'
  | some finder =>
    exact stays_bind (stays_internResult hd htracer t.captures b) fun _ _ _ hd' => stays_pure hd'

section Step

variable {s : Step} {moves : List Move} {context : Context} {injecting : Bool} {tracker : BitSet}
  {c : Nat}

theorem stays_advance (hr : View.Room n U p traced) (hd : d.Within U traced) {m : Move}
    {target : Nfa.State} (hs : View.Holds U target) : Stays U traced (advance s m target) d := by
  refine stays_bind (stays_internState hr hd hs) fun i d' _ hd' => ?_
  split
  · exact stays_pure hd'
  · refine stays_get_bind ?_
    cases d'.tracer with
    | none =>
      exact stays_bind (stays_internBoundaries hd' _) fun _ _ _ hd'' => stays_pure hd''
    | some finder => exact stays_pure hd'

theorem stays_makeMoves (hr : View.Room n U p traced) (hd : d.Within U traced)
    (hs : ∀ s ∈ targets context (moves.map (·.transition)), View.Holds U s) :
    Stays U traced (makeMoves context moves s) d := by
  induction moves generalizing s d with
  | nil => exact stays_pure hd
  | cons m moves ih =>
    rw [List.map_cons] at hs
    unfold targets at hs
    unfold makeMoves
    cases ht : m.transition.target with
    | final => exact stays_bind (stays_accept hd _ _ _) fun _ _ _ hd' => stays_pure hd'
    | next main lookAheads =>
      simp only [ht, List.forall_mem_cons] at hs
      exact stays_bind (stays_advance hr hd hs.1) fun _ _ _ hd' => ih hd' hs.2

theorem stays_inject (hr : View.Room n U p traced) (hd : d.Within U traced)
    (hs : View.Holds U (n.initial context)) : Stays U traced (inject context s) d := by
  refine stays_bind (stays_initialThread hr hd hs) fun t d' _ hd' => ?_
  split
  · exact stays_pure hd'
  · refine stays_get_bind ?_
    cases d'.tracer <;> exact stays_pure hd'

theorem stays_arrive (hr : View.Room n U p traced) (hd : d.Within U traced)
    (hs : ∀ s ∈ reached n (moves.map (·.transition)) injecting tracker c, View.Holds U s) :
    Stays U traced (arrive moves injecting (n.lookBehinds.advance tracker c) c) d := by
  have htargets : ∀ s ∈ targets (n.contextOf false (n.lookBehinds.advance tracker c))
      ((allowing moves c).map (·.transition)), View.Holds U s := by
    rw [map_transition_allowing]
    exact fun s hmem => hs s (mem_reached_of_targets hmem)
  refine stays_bind (stays_makeMoves hr hd htargets) fun s d' hmoves hd' => ?_
  rw [makeMoves_injecting hmoves, stillInjecting_eq]
  split
  · exact stays_inject hr hd' (hs _ (initial_mem_reached ‹_›))
  · exact stays_pure hd'

theorem stays_target (hr : View.Room n U p traced) (hd : d.Within U traced)
    (hU : View.LeadsTo n U p.maxThreads (moves.map (·.transition)) injecting tracker c)
    {us : List SlotUpdate} (hs : Realized d (arrived n moves injecting tracker c) s.threads us) :
    Stays U traced (target p s (stillInjecting moves injecting c)
      (n.lookBehinds.advance tracker c)) d := by
  have hstates := hs.hasStates
  rw [map_state_arrived] at hstates
  have hlength := hstates.length_eq
  unfold target
  rw [if_neg (by have := hU.1; omega)]
  split
  · exact stays_pure hd
  · rename_i hne
    have hne' : reached n (moves.map (·.transition)) injecting tracker c ≠ [] := by
      intro hnil
      rw [hnil, List.length_nil, List.length_eq_zero_iff] at hlength
      exact hne (by rw [hlength]; rfl)
    rw [stillInjecting_eq]
    refine stays_internKey hr hd (Discovered.view_search_iff.mpr
      ⟨_, List.rel_reverse hstates, rfl⟩) (hU.2 hne') fun htraced t ht => ?_
    obtain ⟨a, -, u, hreal⟩ := hs.mem_thread (List.mem_reverse.mp ht)
    exact (hreal.tracked (hd.traced?_eq_none htraced)).1

theorem stays_step (hr : View.Room n U p traced) (hd : d.Within U traced) {range : CodePointRange}
    (hU : View.LeadsTo n U p.maxThreads (moves.map (·.transition)) injecting tracker range.lo) :
    Stays U traced (step p moves injecting tracker range) d := by
  have hs : ∀ s ∈ reached n (moves.map (·.transition)) injecting tracker range.lo,
      View.Holds U s := fun s hs =>
    ⟨_, _, _, hU.2 (List.ne_nil_of_mem hs), List.mem_reverse.mpr hs⟩
  refine stays_bind (stays_arrive hr hd hs) fun s d' harrive hd' => ?_
  obtain ⟨-, -, hstill, hreal, -⟩ := arrive_gives harrive hd.noBoundaries
  rw [hstill]
  exact stays_bind (stays_target hr hd' hU hreal) fun _ _ _ hd'' => stays_pure hd''

end Step

/-! ## States -/

section Expand

variable {threads : List Thread} {injecting : Bool} {tracker : BitSet}

theorem stays_expandLead (hr : View.Room n U p traced) (hd : d.Within U traced)
    (hU : U (.lead tracker)) : Stays U traced (expandLead p tracker) d := by
  refine stays_bind (stays_root hr hd (hr.closed.root _ hU)) fun entry d' _ hd' => ?_
  cases hempty : n.lookBehinds.isEmpty with
  | true => exact stays_pure hd'
  | false =>
    refine stays_bind (stays_foldlM (fun ts r d hmem hd => ?_) hd') fun _ _ _ hd'' => stays_pure hd''
    exact stays_bind (stays_internKey hr hd rfl
      (hr.closed.lead hempty _ hU _ (lo_le_maxCodePoint hmem)) fun _ => nofun)
      fun _ _ _ hd' => stays_pure hd'

theorem exists_mapM_moves {ss : List Nfa.State} {tss : List (List Nfa.Transition)}
    (hs : d.HasStates threads ss) (hts : List.Forall₂ (fun s ts => n.transitions s = .ok ts) ss tss)
    (slot : Nat) : ∃ mss, Gives ((threads.zipIdx slot).mapM fun (thread, slot) =>
      (liftM ((d.states.transitions thread.state).map fun ts : List Nfa.Transition =>
        ts.map fun transition => { slot, thread, transition : Move }) : Build n (List Move)))
      d mss d ∧ mss.map (·.map (·.transition)) = tss := by
  induction hs generalizing tss slot with
  | nil =>
    obtain rfl := List.forall₂_nil_left_iff.mp hts
    exact ⟨[], rfl, rfl⟩
  | @cons t s threads ss ht _ ih =>
    obtain ⟨trs, tss, htrs, hrest, rfl⟩ := List.forall₂_cons_left_iff.mp hts
    obtain ⟨mss, hmss, heq⟩ := ih hrest (slot + 1)
    refine ⟨trs.map (fun transition => ⟨slot, t, transition⟩) :: mss, ?_, ?_⟩
    · rw [List.zipIdx_cons, List.mapM_cons]
      refine gives_bind.mpr ⟨_, d, gives_liftM.mpr ⟨?_, rfl⟩,
        gives_bind.mpr ⟨mss, d, hmss, gives_pure.mpr ⟨rfl, rfl⟩⟩⟩
      rw [Nfa.States.transitions_eq ht, htrs]
      rfl
    · rw [List.map_cons, heq, List.map_map]
      exact congrArg (· :: tss) (List.map_id' trs)

/-- The moves are those of the transitions of the states. -/
theorem exists_allMoves {ss : List Nfa.State} {ts : List Nfa.Transition}
    (hs : d.HasStates threads ss) (hts : Outgoing n ss ts) :
    ∃ moves, Gives (allMoves threads) d moves d ∧ moves.map (·.transition) = ts := by
  obtain ⟨tss, htss, rfl⟩ := hts
  obtain ⟨mss, hmss, rfl⟩ := exists_mapM_moves hs htss 0
  exact ⟨mss.flatten, gives_get_bind.mpr (gives_bind.mpr ⟨mss, d, hmss, gives_pure.mpr ⟨rfl, rfl⟩⟩),
    List.map_flatten⟩

theorem stays_endAccept (hd : d.Within U traced) (moves : List Move) :
    Stays U traced (endAccept moves) d := by
  unfold endAccept
  cases moves.find? (·.transition.acceptsEnd) with
  | none => exact stays_pure hd
  | some m => exact stays_bind (stays_accept hd _ _ _) fun _ _ _ hd' => stays_pure hd'

theorem stays_expandSearch (hr : View.Room n U p traced) (hd : d.Within U traced)
    {ss : List Nfa.State} (hs : d.HasStates threads ss) (hU : U (.search ss injecting tracker)) :
    Stays U traced (expandSearch p threads injecting tracker) d := by
  obtain ⟨ts, hts, hleads⟩ := hr.closed.search _ _ _ hU
  obtain ⟨moves, hmoves, rfl⟩ := exists_allMoves hs hts
  refine stays_bind_of_gives hmoves ?_
  refine stays_bind (stays_foldlM (fun ts r d hmem hd => ?_) hd) fun _ d' _ hd' => ?_
  · exact stays_bind (stays_step hr hd (hleads _ (lo_le_maxCodePoint hmem)))
      fun _ _ _ hd' => stays_pure hd'
  · exact stays_bind (stays_endAccept hd' moves) fun _ _ _ hd'' =>
      stays_get_bind (stays_pure hd'')

theorem stays_expand (hr : View.Room n U p traced) (hd : d.Within U traced) {k : Key} {v : View}
    (hv : d.view k = some v) (hU : U v) : Stays U traced (expand p k) d := by
  cases k with
  | dead => exact stays_pure hd
  | lead tracker =>
    cases hv
    exact stays_expandLead hr hd hU
  | search threads injecting tracker =>
    obtain ⟨ss, hss, rfl⟩ := Discovered.view_search_iff.mp hv
    exact stays_expandSearch hr hd hss hU

theorem stays_expandAll (hr : View.Room n U p traced) {fuel : Nat} {done : Array State}
    (hd : d.Within U traced) : Stays U traced (expandAll p fuel done) d := by
  induction fuel generalizing d done with
  | zero => exact stays_pure hd
  | succ fuel ih =>
    unfold expandAll
    refine stays_get_bind ?_
    cases hk : d.keys.get? done.size with
    | none => exact stays_pure hd
    | some k =>
      obtain ⟨v, hv, hU⟩ := hd.keys _ k hk
      exact stays_bind (stays_expand hr hd hv hU) fun _ _ _ hd' => ih hd'

theorem stays_dfa (hr : View.Room n U p traced) (hd : d.Within U traced) :
    Stays U traced (dfa p) d := by
  refine stays_bind (stays_root hr hd hr.closed.rootStart) fun _ d1 _ hd1 => ?_
  refine stays_bind (stays_internKey hr hd1 rfl hr.closed.rootMid fun _ => nofun) fun _ d2 _ hd2 => ?_
  exact stays_bind (stays_expandAll hr hd2) fun _ _ _ hd3 => stays_get_bind (stays_pure hd3)

end Expand

/-! ## Within the views of an automaton -/

/-- A finished automaton leaves room for its views, under its limits. -/
theorem Built.room {p' : Plan} {a : Dfa} (h : Built p d a) (hsticky : p'.sticky = p.sticky)
    (hstates : p'.maxStates = p.maxStates) (hthreads : p'.maxThreads = p.maxThreads)
    (hstage : traced = true → p'.stage = .traceFinder) : View.Room n d.Viewed p' traced where
  closed := by
    rw [hsticky, hthreads]
    exact h.viewed_closed
  states ss hnodup hss := by
    have hsub : ss ⊆ d.states.table.items.toList := by
      intro s hs
      obtain ⟨ss', injecting, tracker, ⟨i, k, -, hv⟩, hmem⟩ := hss s hs
      obtain ⟨j, hj⟩ := Discovered.view_mem hv hmem
      exact List.mem_of_getElem? (i := j) (by rwa [Array.getElem?_toList])
    have hle := (hnodup.subperm hsub).length_le
    rw [Array.length_toList] at hle
    exact Nat.le_trans hle d.states.size_le
  keys _ vs hnodup hvs := by
    have hsub : vs ⊆ d.keys.items.toList.filterMap d.view := by
      intro v hv
      obtain ⟨i, k, hk, hview⟩ := hvs v hv
      exact List.mem_filterMap.mpr
        ⟨k, List.mem_of_getElem? (i := i) (by rwa [Array.getElem?_toList]), hview⟩
    have hle := Nat.le_trans (hnodup.subperm hsub).length_le (List.length_filterMap_le ..)
    rw [Array.length_toList] at hle
    -- The dead key and that of a root are different, so the limit is not zero.
    obtain ⟨t, hroot, -⟩ := h.rootStart
    have hpos : a.rootStart ≠ Dfa.dead := by
      intro hdead
      rw [hdead, h.valid.dead] at hroot
      cases hroot
    have hlt := Interner.lt_size hroot
    have hsize := h.valid.size
    have htwo : 1 < d.keys.size := Nat.lt_of_le_of_lt (Nat.one_le_iff_ne_zero.mpr hpos) hlt
    have hkeys : d.keys.size ≤ p.maxStates := by omega
    exact Nat.le_trans hle (hstates ▸ hkeys)
  stage := hstage

theorem within_start {states : Nfa.States n} {tracer : Option TraceFinder}
    (hr : View.Room n U p tracer.isSome)
    (hs : ∀ i s, states.state? i = some s → View.Holds U s) :
    (Discovered.start states tracer).Within U tracer.isSome := by
  have hkeys : ∀ i k, (Discovered.start states tracer).keys.get? i = some k → k = .dead := by
    intro i k hk
    rcases Interner.get?_intern hk with hk | rfl
    · cases hk
    · rfl
  refine ⟨hs, fun i k hk => ?_, fun _ i k hk => ?_, Interner.get?_intern_empty _, rfl⟩
  · exact ⟨.dead, by rw [hkeys i k hk]; rfl, hr.closed.dead⟩
  · rw [hkeys i k hk]
    exact nofun

/-- A whole construction stays within closed views. -/
theorem build_stays {states : Nfa.States n} (tracer : Option TraceFinder)
    (hr : View.Room n U p tracer.isSome)
    (hs : ∀ i s, states.state? i = some s → View.Holds U s) :
    (∀ i s, (build states p tracer).2.state? i = some s → View.Holds U s) ∧
      ∀ e, (build states p tracer).1 = .error e → tracer.isSome = true ∧ e.stage = .traceFinder :=
  let h := stays_dfa hr (within_start hr hs)
  ⟨h.1.states, h.2⟩

/-- Without traces, a construction with room for all views succeeds. -/
theorem exists_build {states : Nfa.States n} (hr : View.Room n U p false)
    (hs : ∀ i s, states.state? i = some s → View.Holds U s) :
    ∃ a, (build states p none).1 = .ok a := by
  cases hbuild : (build states p none).1 with
  | ok a => exact ⟨a, rfl⟩
  | error e => cases ((build_stays none hr hs).2 e hbuild).1

end Build

end Dfa

end PatternAutomata
