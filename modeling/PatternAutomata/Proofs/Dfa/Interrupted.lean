import PatternAutomata.Proofs.Dfa.Expansion

/-!
# A construction that is interrupted

Limits may end a construction at any point. What it has discovered by then remains, so a property of
all keys that occur has to hold whatever the outcome. It does if it holds of the keys of the roots,
and is kept by the step from the threads of a key to those that arrive on a character
(`KeyInvariant.sound_of_run`).
-/

namespace PatternAutomata.Dfa

variable {n : Nfa}

/-- The thread begins in the context: nothing has been consumed, and no group was entered. -/
structure Discovered.Begins (d : Discovered n) (context : Context) (t : Thread) : Prop where
  state : d.states.state? t.state = some (n.initial context)
  captures : t.captures = d.traced?.elim #[] RelativeCaptures.fresh

theorem Discovered.Begins.mono {d d' : Discovered n} {context : Context} {t : Thread}
    (h : d.Begins context t) (hd : d.Extends d') : d'.Begins context t :=
  ⟨hd.states _ _ h.state, hd.traced ▸ h.captures⟩

/-- What is said about what was discovered stays true while the keys remain the same. -/
def Lasting (I : Discovered n → Prop) : Prop :=
  ∀ {d d' : Discovered n}, I d → d.Extends d' → d'.keys = d.keys → I d'

namespace Build

/-! ## What holds whatever the outcome -/

/-- What was discovered satisfies `I` in the end, whether the part of the construction succeeds or
fails. -/
def Keeps (I : Discovered n → Prop) {α : Type} (x : Build n α) (d : Discovered n) : Prop :=
  I (x.run.run d).2

section Keeps

variable {I : Discovered n → Prop} {α β γ : Type} {x : Build n α} {d d' : Discovered n}

theorem keeps_of_gives {a : α} (h : Gives x d a d') (hd : I d') : Keeps I x d := by
  rw [Keeps, h]
  exact hd

theorem keeps_pure {a : α} (hd : I d) : Keeps I (pure a) d :=
  keeps_of_gives (gives_pure.mpr ⟨rfl, rfl⟩) hd

theorem keeps_mono {J : Discovered n → Prop} (h : ∀ e, I e → J e) (hx : Keeps I x d) :
    Keeps J x d := h _ hx

theorem keeps_bind {f : α → Build n β} (hx : Keeps I x d)
    (hf : ∀ a d', Gives x d a d' → I d' → Keeps I (f a) d') : Keeps I (x >>= f) d := by
  unfold Keeps at hx ⊢
  rw [run_bind]
  rcases hr : x.run.run d with ⟨e | a, d'⟩
  · rwa [hr] at hx
  · rw [hr] at hx
    exact hf a d' hr hx

theorem keeps_get_bind {f : Discovered n → Build n β} (h : Keeps I (f d) d) :
    Keeps I (get >>= f) d := h

theorem keeps_foldlM {f : β → γ → Build n β} {as : List γ} {b : β}
    (hf : ∀ b a d, a ∈ as → I d → Keeps I (f b a) d) (hd : I d) :
    Keeps I (as.foldlM f b) d := by
  induction as generalizing b d with
  | nil => exact keeps_pure hd
  | cons a as ih =>
    rw [List.foldlM_cons]
    exact keeps_bind (hf b a d (by simp) hd) fun b' d' _ hd' =>
      ih (fun b a d ha => hf b a d (by simp [ha])) hd'

/-! ## Parts that number no keys -/

variable (hI : Lasting I) (hd : I d)
include hI hd

theorem keeps_internState (s : Nfa.State) : Keeps I (internState s) d := by
  rcases hrun : (internState s).run.run d with ⟨e | i, d'⟩
  · obtain ⟨states, keys, boundaries, tracer⟩ := d
    rw [Keeps, hrun]
    rw [run_internState] at hrun
    obtain ⟨h1, rfl⟩ := Prod.mk.inj hrun
    obtain ⟨h2, -⟩ := Nfa.States.intern_eq_error (Prod.ext h1 rfl)
    simpa [h2] using hd
  · obtain ⟨he, hk, -⟩ := internState_gives hrun
    exact keeps_of_gives hrun (hI hd he hk)

theorem keeps_internBoundaries (b : Boundaries) : Keeps I (internBoundaries b) d := by
  have hrun : Gives (internBoundaries b) d (d.boundaries.intern b).2
      { d with boundaries := (d.boundaries.intern b).1 } := rfl
  obtain ⟨he, hk, -⟩ := internBoundaries_gives hrun
  exact keeps_of_gives hrun (hI hd he hk)

theorem keeps_internResult {finder : TraceFinder} (hfinder : d.tracer = some finder)
    (captures : RelativeCaptures) (b : Boundaries) : Keeps I (internResult finder captures b) d := by
  rcases hrun : (internResult finder captures b).run.run d with ⟨e | i, d'⟩
  · rw [run_internResult] at hrun
    rw [Keeps, run_internResult]
    split at hrun
    · cases congrArg Prod.fst hrun
    · exact hd
  · obtain ⟨he, hk, -⟩ := internResult_gives hfinder hrun
    exact keeps_of_gives hrun (hI hd he hk)

theorem keeps_initialThread (context : Context) : Keeps I (initialThread context) d :=
  keeps_bind (keeps_internState hI hd _) fun _ _ _ hd' => keeps_get_bind (keeps_pure hd')

theorem keeps_accept (slot : Nat) (t : Thread) (b : Boundaries) : Keeps I (accept slot t b) d := by
  unfold accept
  refine keeps_get_bind ?_
  cases htracer : d.tracer with
  | none => exact keeps_bind (keeps_internBoundaries hI hd b) fun _ _ _ hd' => keeps_pure hd'
  | some finder =>
    exact keeps_bind (keeps_internResult hI hd htracer t.captures b) fun _ _ _ hd' => keeps_pure hd'

theorem keeps_advance (s : Step) (m : Move) (target : Nfa.State) :
    Keeps I (advance s m target) d := by
  refine keeps_bind (keeps_internState hI hd target) fun i d' _ hd' => ?_
  split
  · exact keeps_pure hd'
  · refine keeps_get_bind ?_
    cases d'.tracer with
    | none => exact keeps_bind (keeps_internBoundaries hI hd' _) fun _ _ _ hd'' => keeps_pure hd''
    | some finder => exact keeps_pure hd'

theorem keeps_makeMoves (context : Context) (moves : List Move) (s : Step) :
    Keeps I (makeMoves context moves s) d := by
  induction moves generalizing s d with
  | nil => exact keeps_pure hd
  | cons m moves ih =>
    unfold makeMoves
    cases m.transition.target with
    | final => exact keeps_bind (keeps_accept hI hd _ _ _) fun _ _ _ hd' => keeps_pure hd'
    | next main lookAheads =>
      exact keeps_bind (keeps_advance hI hd _ _ _) fun s' _ _ hd' => ih hd' s'

theorem keeps_inject (context : Context) (s : Step) : Keeps I (inject context s) d := by
  refine keeps_bind (keeps_initialThread hI hd context) fun t d' _ hd' => ?_
  split
  · exact keeps_pure hd'
  · refine keeps_get_bind ?_
    cases d'.tracer <;> exact keeps_pure hd'

theorem keeps_arrive (moves : List Move) (injecting : Bool) (tracker : BitSet) (c : Nat) :
    Keeps I (arrive moves injecting tracker c) d := by
  refine keeps_bind (keeps_makeMoves hI hd _ _ _) fun s d' _ hd' => ?_
  split
  · exact keeps_inject hI hd' _ s
  · exact keeps_pure hd'

theorem keeps_endAccept (moves : List Move) : Keeps I (endAccept moves) d := by
  unfold endAccept
  cases moves.find? (·.transition.acceptsEnd) with
  | none => exact keeps_pure hd
  | some m => exact keeps_bind (keeps_accept hI hd _ _ _) fun _ _ _ hd' => keeps_pure hd'

omit hI in
/-- The moves of threads are read off what was discovered. -/
theorem keeps_allMoves (threads : List Thread) : Keeps I (allMoves threads) d := by
  refine keeps_get_bind ?_
  refine keeps_bind ?_ fun _ _ _ hd' => keeps_pure hd'
  generalize threads.zipIdx = slots
  suffices h : ∀ d', I d' → Keeps I (slots.mapM fun slot =>
      (liftM ((d.states.transitions slot.1.state).map fun ts : List Nfa.Transition =>
        ts.map fun transition => { slot := slot.2, thread := slot.1, transition : Move }) :
          Build n (List Move))) d' from
    h d hd
  intro d' hd'
  induction slots generalizing d' with
  | nil => exact keeps_pure hd'
  | cons slot slots ih =>
    rw [List.mapM_cons]
    refine keeps_bind ?_ fun _ d'' _ hd'' => keeps_bind (ih d'' hd'') fun _ _ _ hd''' =>
      keeps_pure hd'''
    cases d.states.transitions slot.1.state <;> exact hd'

end Keeps

/-! ## Keys -/

/-- A property of the threads of keys, with whether further ones may begin and the tracker. It holds
of the keys of the roots, and of those to which a key with the property leads. -/
structure KeyInvariant (p : Plan)
    (C : Discovered n → List Thread → Bool → BitSet → Prop) : Prop where
  mono : ∀ {d d' : Discovered n} {threads injecting tracker}, C d threads injecting tracker →
    d.Extends d' → C d' threads injecting tracker
  root : ∀ {d : Discovered n} {t atStart w},
    d.Begins (n.contextOf atStart (n.lookBehinds.afterCodes w)) t →
    (atStart = true → n.usesStart = true ∧ w = []) →
    C d [t] (!p.sticky) (n.lookBehinds.afterCodes w)
  step : ∀ {d : Discovered n} {threads injecting tracker moves c ts us},
    C d threads injecting tracker → MovesOf d 0 threads moves → c ≤ maxCodePoint →
    Realized d (arrived n moves injecting tracker c) ts us → ts ≠ [] → ts.length ≤ p.maxThreads →
    C d ts.reverse (stillInjecting moves injecting c) (n.lookBehinds.advance tracker c)

/-- What was discovered after `d₀` is valid, and the threads of all keys have the property. What is
read ahead of a search is some text. -/
structure Sound (p : Plan) (C : Discovered n → List Thread → Bool → BitSet → Prop)
    (d₀ d : Discovered n) : Prop where
  later : d₀.Extends d
  valid : Valid p d
  keys : ∀ i threads injecting tracker, d.keys.get? i = some (.search threads injecting tracker) →
    C d threads injecting tracker
  leads : ∀ i tracker, d.keys.get? i = some (.lead tracker) →
    ∃ w, tracker = n.lookBehinds.afterCodes w

section Sound

variable {p : Plan} {C : Discovered n → List Thread → Bool → BitSet → Prop}
  (hC : KeyInvariant p C) {d d₀ d₁ : Discovered n} {threads : List Thread} {injecting : Bool}
  {tracker : BitSet} {moves : List Move}

theorem Sound.restart (h : Sound p C d₀ d) : Sound p C d d := { h with later := .refl d }

theorem Sound.since (h : Sound p C d₁ d) (hd : d₀.Extends d₁) : Sound p C d₀ d :=
  { h with later := hd.trans h.later }

include hC

theorem KeyInvariant.lasting : Lasting (Sound p C d₀) := fun hd he hk =>
  ⟨hd.later.trans he, hd.valid.mono he hk, fun i threads injecting tracker hi =>
    hC.mono (hd.keys i threads injecting tracker (hk ▸ hi)) he, hk ▸ hd.leads⟩

theorem keeps_internKey (hd : Sound p C d₀ d) {k : Key} (hk : KeyValid p d k)
    (hsearch : ∀ threads injecting tracker, k = .search threads injecting tracker →
      C d threads injecting tracker)
    (hlead : ∀ tracker, k = .lead tracker → ∃ w, tracker = n.lookBehinds.afterCodes w) :
    Keeps (Sound p C d₀) (internKey p k) d := by
  rcases hrun : (internKey p k).run.run d with ⟨e | i, d'⟩
  · obtain ⟨rfl, -⟩ := internKey_eq_error hrun
    rw [Keeps, hrun]
    exact hd
  · obtain ⟨he, -, hnew, -⟩ := internKey_gives hrun
    refine keeps_of_gives hrun ⟨hd.later.trans he, hd.valid.internKey hk hrun,
      fun j threads injecting tracker hj => ?_, fun j tracker hj => ?_⟩
    · rcases hnew j _ hj with hj | hj
      · exact hC.mono (hd.keys j threads injecting tracker hj) he
      · exact hC.mono (hsearch threads injecting tracker hj.symm) he
    · rcases hnew j _ hj with hj | hj
      · exact hd.leads j tracker hj
      · exact hlead tracker hj.symm

theorem keeps_internKey_lead (hd : Sound p C d₀ d) (w : List Nat) :
    Keeps (Sound p C d₀) (internKey p (.lead (n.lookBehinds.afterCodes w))) d := by
  refine keeps_internKey hC hd ⟨nofun, Nat.zero_le _, nofun⟩ nofun fun tracker hk => ?_
  cases hk
  exact ⟨w, rfl⟩

theorem keeps_root (hd : Sound p C d₀ d) {atStart : Bool} {w : List Nat}
    (h : atStart = true → n.usesStart = true ∧ w = []) :
    Keeps (Sound p C d₀) (root p (n.lookBehinds.afterCodes w) atStart) d := by
  refine keeps_bind (keeps_initialThread hC.lasting hd _) fun t d' ht hd' => ?_
  obtain ⟨-, -, -, hs, hc⟩ := initialThread_gives ht
  refine keeps_internKey hC hd' (keyValid_singleton hs hc _ _) (fun threads injecting tracker hk => ?_)
    nofun
  cases hk
  exact hC.root ⟨hs, hc⟩ h

theorem keeps_target {c : Nat} {s : Step} (hd : Sound p C d₀ d)
    (hkey : C d threads injecting tracker) (hmoves : MovesOf d 0 threads moves)
    (hknown : Known d moves) (hc : c ≤ maxCodePoint)
    (hs : Realized d (arrived n moves injecting tracker c) s.threads s.updates) :
    Keeps (Sound p C d₀) (target p s (stillInjecting moves injecting c)
      (n.lookBehinds.advance tracker c)) d := by
  unfold target
  split
  · exact hd
  · rename_i hcount
    split
    · exact keeps_pure hd
    · rename_i hne
      have hle := Nat.le_of_not_lt hcount
      refine keeps_internKey hC hd (keyValid_arrived hs hknown (hs.length_eq ▸ hle) _)
        (fun threads' injecting' tracker' hk => ?_) nofun
      cases hk
      exact hC.step hkey hmoves hc hs (by simpa using hne) hle

theorem keeps_step (hd : Sound p C d₀ d) (hkey : C d threads injecting tracker)
    (hmoves : MovesOf d 0 threads moves) (hknown : Known d moves) {range : CodePointRange}
    (hrange : range.lo ≤ maxCodePoint) :
    Keeps (Sound p C d₀) (step p moves injecting tracker range) d := by
  refine keeps_bind (keeps_arrive hC.lasting hd _ _ _ _) fun s d' harrive hd' => ?_
  obtain ⟨he, -, hstill, hs, -⟩ := arrive_gives harrive hd.valid.noBoundaries
  rw [hstill]
  exact keeps_bind (keeps_target hC hd' (hC.mono hkey he) (hmoves.mono he) (hknown.mono he) hrange hs)
    fun _ _ _ hd'' => keeps_pure hd''

theorem keeps_expandLead (hd : Sound p C d₀ d) (w : List Nat) :
    Keeps (Sound p C d₀) (expandLead p (n.lookBehinds.afterCodes w)) d := by
  refine keeps_bind (keeps_root hC hd nofun) fun entry d' _ hd' => ?_
  cases n.lookBehinds.isEmpty with
  | true => exact keeps_pure hd'
  | false =>
    refine keeps_bind (keeps_foldlM (fun ts r d _ hd => ?_) hd') fun _ _ _ hd'' => keeps_pure hd''
    rw [← LookBehindTable.afterCodes_append_singleton]
    exact keeps_bind (keeps_internKey_lead hC hd _) fun _ _ _ hd' => keeps_pure hd'

theorem keeps_expandSearch (hd : Sound p C d₀ d) {i : StateId}
    (hi : d.keys.get? i = some (.search threads injecting tracker)) :
    Keeps (Sound p C d₀) (expandSearch p threads injecting tracker) d := by
  refine keeps_bind (keeps_allMoves hd threads) fun moves d' hallMoves hd' => ?_
  obtain ⟨rfl, hmoves, hknown⟩ := allMoves_gives hd.valid hi hallMoves
  have hkey := hd.keys i threads injecting tracker hi
  -- While the transitions are made, the key and its moves remain known.
  refine keeps_bind (keeps_mono (fun e (he : Sound p C d' e) => he.since hd.later)
    (keeps_foldlM (fun ts r e hr he => ?_) hd.restart)) fun ts e _ he => ?_
  · have hrange := lo_le_maxCodePoint hr
    exact keeps_bind (keeps_step hC he (hC.mono hkey he.later) (hmoves.mono he.later)
      (hknown.mono he.later) hrange) fun _ _ _ he' => keeps_pure he'
  · exact keeps_bind (keeps_endAccept hC.lasting he moves) fun _ _ _ he' =>
      keeps_get_bind (keeps_pure he')

theorem keeps_expand (hd : Sound p C d₀ d) {i : StateId} {k : Key} (hi : d.keys.get? i = some k) :
    Keeps (Sound p C d₀) (expand p k) d := by
  cases k with
  | dead => exact keeps_pure hd
  | lead tracker =>
    obtain ⟨w, rfl⟩ := hd.leads i tracker hi
    exact keeps_expandLead hC hd w
  | search threads injecting tracker => exact keeps_expandSearch hC hd hi

theorem keeps_expandAll (hd : Sound p C d₀ d) (fuel : Nat) (done : Array State) :
    Keeps (Sound p C d₀) (expandAll p fuel done) d := by
  induction fuel generalizing d done with
  | zero => exact keeps_pure hd
  | succ fuel ih =>
    unfold expandAll
    refine keeps_get_bind ?_
    cases hk : d.keys.get? done.size with
    | none => exact keeps_pure hd
    | some k => exact keeps_bind (keeps_expand hC hd hk) fun s _ _ hd' => ih hd' (done.push s)

theorem keeps_upTo (hd : Sound p C d₀ d) (fuel : Nat) : Keeps (Sound p C d₀) (upTo p fuel) d :=
  keeps_bind (keeps_root hC hd (w := []) fun h => ⟨h, rfl⟩) fun _ _ _ hd₁ =>
    keeps_bind (keeps_internKey_lead hC hd₁ []) fun _ _ _ hd₂ =>
      keeps_bind (keeps_expandAll hC hd₂ fuel #[]) fun _ _ _ hd₃ => keeps_get_bind (keeps_pure hd₃)

omit hC in
theorem sound_start (states : Nfa.States n) (tracer : Option TraceFinder) :
    Sound p C (Discovered.start states tracer) (Discovered.start states tracer) := by
  refine ⟨.refl _, valid_start p states tracer, fun i threads injecting tracker hi => ?_,
    fun i tracker hi => ?_⟩ <;>
  rcases Interner.get?_intern hi with hi | hi <;> cases hi

/-- Whatever the outcome of the construction, and however far it has got, the threads of all keys
have the property. -/
theorem KeyInvariant.sound_of_run (states : Nfa.States n) (tracer : Option TraceFinder) (fuel : Nat) :
    Sound p C (Discovered.start states tracer)
      ((upTo p fuel).run.run (Discovered.start states tracer)).2 :=
  keeps_upTo hC (sound_start states tracer) fuel

end Sound

end Build

/-! ## Paths -/

/-- A path from one of the roots reads the text and leads to the state. The states that read before
a search lead to where it begins without reading a character. -/
inductive Reads (a : Dfa) : StateId → List Nat → Prop
  | rootStart : Reads a a.rootStart []
  | rootMid : Reads a a.rootMid []
  | entry {i j : StateId} {w : List Nat} (h : Reads a i w) (hj : (a.state i).entry = some j) :
    Reads a j w
  | next {i : StateId} {w : List Nat} {c : Nat} {t : Transition} (h : Reads a i w)
    (hc : c ≤ maxCodePoint) (ht : (a.state i).transition? c = some t) : Reads a t.target (w ++ [c])

/-- The tracker has read the text, and each of the threads is related to it. -/
def Key.After (n : Nfa) (T : List Nat → Thread → Prop) (w : List Nat) : Key → Prop
  | .dead => True
  | .lead tracker => tracker = n.lookBehinds.afterCodes w
  | .search threads _ tracker => tracker = n.lookBehinds.afterCodes w ∧ ∀ t ∈ threads, T w t

namespace Build

/-- A relation between texts and keys. It holds at the roots, and is kept along the ways that lead
from a key to others. -/
structure PathInvariant (p : Plan) (d : Discovered n) (P : List Nat → Key → Prop) : Prop where
  dead : ∀ w, P w .dead
  rootStart : ∀ t, d.Begins (n.contextOf n.usesStart n.lookBehinds.initial) t →
    P [] (.search [t] (!p.sticky) n.lookBehinds.initial)
  rootMid : P [] (.lead n.lookBehinds.initial)
  entry : ∀ {w tracker t}, P w (.lead tracker) → d.Begins (n.contextOf false tracker) t →
    P w (.search [t] (!p.sticky) tracker)
  lead : ∀ {w tracker c}, P w (.lead tracker) →
    P (w ++ [c]) (.lead (n.lookBehinds.advance tracker c))
  step : ∀ {w threads injecting tracker moves c ts us}, P w (.search threads injecting tracker) →
    MovesOf d 0 threads moves → Realized d (arrived n moves injecting tracker c) ts us → ts ≠ [] →
    P (w ++ [c]) (.search ts.reverse (stillInjecting moves injecting c)
      (n.lookBehinds.advance tracker c))

/-- A relation between texts and threads that holds when a thread begins, and is kept when threads
arrive, holds along all paths. -/
theorem pathInvariant_of_threads {p : Plan} {d : Discovered n} {T : List Nat → Thread → Prop}
    (hbegins : ∀ {w atStart t}, d.Begins (n.contextOf atStart (n.lookBehinds.afterCodes w)) t →
      (atStart = true → w = []) → T w t)
    (harrives : ∀ {w threads injecting moves c ts us}, (∀ t ∈ threads, T w t) →
      MovesOf d 0 threads moves →
      Realized d (arrived n moves injecting (n.lookBehinds.afterCodes w) c) ts us →
      ∀ t ∈ ts, T (w ++ [c]) t) : PathInvariant p d (Key.After n T) where
  dead _ := trivial
  rootStart t ht := ⟨rfl, List.forall_mem_singleton.mpr (hbegins (w := []) ht fun _ => rfl)⟩
  rootMid := rfl
  entry := by
    rintro w tracker t rfl ht
    exact ⟨rfl, List.forall_mem_singleton.mpr (hbegins ht nofun)⟩
  lead := by
    rintro w tracker c rfl
    exact (LookBehindTable.afterCodes_append_singleton ..).symm
  step := by
    rintro w threads injecting tracker moves c ts us ⟨rfl, hthreads⟩ hmoves hs -
    refine ⟨(LookBehindTable.afterCodes_append_singleton ..).symm, fun t ht => ?_⟩
    exact harrives hthreads hmoves hs t (List.mem_reverse.mp ht)

section Begun

variable {p : Plan} {d : Discovered n} {a : Dfa} {P : List Nat → Key → Prop} {i : StateId}
  {w : List Nat}

/-- The first states of the automaton are those that lead anywhere. -/
theorem Begun.expands_of_leads (hb : Begun p d a) {k : Key} (hi : d.keys.get? i = some k)
    (h : (a.state i).successors ≠ []) : Expands p d k (a.state i) := by
  refine hb.expands i k (Nat.lt_of_not_le fun hle => h ?_) hi
  rw [state, Array.getD_eq_getD_getElem?, Array.getElem?_eq_none_iff.mpr hle]
  rfl

section Steps

variable {k : Key} (hb : Begun p d a) (hP : PathInvariant p d P) (hi : d.keys.get? i = some k)
  (hk : P w k)
include hb hP hi hk

/-- The relation is kept where a search begins. -/
theorem Begun.of_entry {j : StateId} (hj : (a.state i).entry = some j) :
    ∃ k, d.keys.get? j = some k ∧ P w k := by
  have hx := hb.expands_of_leads hi (by simp [State.successors, hj])
  cases k with
  | dead =>
    rw [show a.state i = {} from hx] at hj
    cases hj
  | lead tracker =>
    obtain ⟨e, he, t, hkey, hs, hc⟩ := ReadsAhead.entry hx
    rw [hj] at he
    cases he
    exact ⟨_, hkey, hP.entry hk ⟨hs, hc⟩⟩
  | search threads injecting tracker =>
    obtain ⟨moves, hx⟩ := hx
    rw [hx.entry] at hj
    cases hj

/-- The relation is kept on a character. -/
theorem Begun.of_transition {c : Nat} {t : Transition} (hc : c ≤ maxCodePoint)
    (ht : (a.state i).transition? c = some t) :
    ∃ k, d.keys.get? t.target = some k ∧ P (w ++ [c]) k := by
  have hx := hb.expands_of_leads hi fun hnil => by
    have hmem : t.target ∈ (a.state i).successors :=
      List.mem_append_right _ (List.mem_map_of_mem (List.mem_of_find?_eq_some ht))
    rw [hnil] at hmem
    cases hmem
  cases k with
  | dead =>
    rw [show a.state i = {} from hx] at ht
    cases ht
  | lead tracker =>
    have htransitions := ReadsAhead.transitions hx
    split at htransitions
    · rw [State.transition?, htransitions] at ht
      cases ht
    · obtain ⟨t', ht', hkey⟩ := htransitions c hc
      rw [ht] at ht'
      cases ht'
      exact ⟨_, hkey, hP.lead hk⟩
  | search threads injecting tracker =>
    obtain ⟨moves, hx⟩ := hx
    obtain ⟨o, hleads, ho⟩ := hx.transitions c hc
    rw [ht, Option.map_some] at ho
    split at ho
    · cases ho
    · cases ho
      obtain ⟨ts, us, hr, -, (⟨-, hdead⟩ | ⟨hne, hkey⟩)⟩ := hleads.target
      · rw [show t.target = dead from hdead]
        exact ⟨_, hb.valid.dead, hP.dead _⟩
      · exact ⟨_, hkey, hP.step hk hx.ofThreads hr hne⟩

end Steps

/-- The relation holds of every text that a path reads and of the key of the state to which it
leads. -/
theorem Begun.of_reads (hb : Begun p d a) (hP : PathInvariant p d P) (h : a.Reads i w) :
    ∃ k, d.keys.get? i = some k ∧ P w k := by
  induction h with
  | rootStart =>
    obtain ⟨t, hk, hs, hc⟩ := hb.rootStart
    exact ⟨_, hk, hP.rootStart t ⟨hs, hc⟩⟩
  | rootMid => exact ⟨_, hb.rootMid, hP.rootMid⟩
  | entry _ hj ih =>
    obtain ⟨k, hi, hk⟩ := ih
    exact hb.of_entry hP hi hk hj
  | next _ hc ht ih =>
    obtain ⟨k, hi, hk⟩ := ih
    exact hb.of_transition hP hi hk hc ht

end Begun

end Build

end PatternAutomata.Dfa
