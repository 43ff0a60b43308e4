import PatternAutomata.Pattern.Reader
import PatternAutomata.Proofs.Dfa.Expansion
import PatternAutomata.Proofs.Results

/-!
# What the tables of states say

A state is expanded by one step for each interval of code points, while states are still being
discovered. In the end all that a step asks for has a number. So a step can be made again from there,
on any single code point, and discovers nothing: it gives what the table of the state says on that code
point.
-/

namespace PatternAutomata

/-- A state that has a number keeps it, and nothing is added. -/
theorem Nfa.States.intern_of_state? {n : Nfa} {t : States n} {i : Nat} {s : State}
    (h : t.state? i = some s) : t.intern s = (.ok i, t) := by
  have hfind : t.table.find? s = some i := Interner.find?_eq_some_iff.mpr h
  unfold intern
  split
  · rename_i j hj
    cases hfind.symm.trans hj
    rfl
  · rename_i hj
    cases hfind.symm.trans hj

namespace Dfa

variable {n : Nfa}

namespace Build

variable {p : Plan} {d : Discovered n} {s : Step} {as bs : List Arrival} {a : Arrival} {m : Move}
  {ts ts' : List Thread} {us us' : List SlotUpdate} {context : Context}

/-! ## Numbering again -/

theorem internState_again {s : Nfa.State} {i : Nat} (h : d.states.state? i = some s) :
    Gives (internState s) d i d := by
  obtain ⟨states, keys, boundaries, tracer⟩ := d
  rw [Gives, run_internState, Nfa.States.intern_of_state? h]

theorem internKey_again {k : Key} {i : StateId} (h : d.keys.get? i = some k) :
    Gives (internKey p k) d i d := by
  have hfind := Interner.find?_eq_some_iff.mpr h
  rw [Gives, run_internKey, if_pos (.inl (by rw [hfind]; rfl)), Interner.intern_of_find? hfind]

theorem internBoundaries_again {b : Boundaries} {i : Nat} (h : d.boundaries.get? i = some b) :
    Gives (internBoundaries b) d i d := by
  obtain ⟨states, keys, boundaries, tracer⟩ := d
  have hrun : (internBoundaries b).run.run ⟨states, keys, boundaries, tracer⟩ =
      (.ok (boundaries.intern b).2, ⟨states, keys, (boundaries.intern b).1, tracer⟩) := rfl
  rw [Gives, hrun, Interner.intern_of_find? (Interner.find?_eq_some_iff.mpr h)]

theorem internResult_again {finder : TraceFinder} {captures : RelativeCaptures} {b : Boundaries}
    {i : Nat} (hd : d.tracer = some finder) (h : d.result? i = some (captures.record b)) :
    Gives (internResult finder captures b) d i d := by
  rw [Discovered.result?, hd, Option.bind_some] at h
  have hresult : finder.result captures b = .ok (finder, i) := by
    simp only [TraceFinder.result, Interner.find?_eq_some_iff.mpr h]
  obtain ⟨states, keys, boundaries, tracer⟩ := d
  cases hd
  rw [Gives, run_internResult, hresult]

theorem accept_again {x : Accept} (h : Reports d m x) :
    Gives (accept m.slot m.thread m.transition.boundaries) d x d := by
  unfold accept
  rw [gives_get_bind]
  cases htr : d.tracer with
  | none =>
    obtain ⟨b, rfl, hb⟩ := h.tracked (traced?_of_tracer htr)
    exact gives_bind.mpr ⟨b, d, internBoundaries_again hb, gives_pure.mpr ⟨rfl, rfl⟩⟩
  | some finder =>
    obtain ⟨i, rfl, hi⟩ := h.traced _ (traced?_of_tracer_eq_some htr)
    exact gives_bind.mpr ⟨i, d, internResult_again htr hi, gives_pure.mpr ⟨rfl, rfl⟩⟩

/-! ## Threads again -/

/-- Numbers are given once, so there is one thread for an arrival, and one update. -/
theorem Realizes.unique {t t' : Thread} {u u' : Option SlotUpdate} (h : Realizes d a t u)
    (h' : Realizes d a t' u') : t = t' ∧ u = u' := by
  obtain ⟨state, captures⟩ := t
  obtain ⟨state', captures'⟩ := t'
  obtain rfl : state = state' := Interner.get?_inj h.state h'.state
  cases hg : d.traced? with
  | none =>
    obtain ⟨hc, b, hu, hb⟩ := h.tracked hg
    obtain ⟨hc', b', hu', hb'⟩ := h'.tracked hg
    obtain rfl := Interner.get?_inj hb hb'
    exact ⟨by rw [show captures = #[] from hc, show captures' = #[] from hc'], hu.trans hu'.symm⟩
  | some groups =>
    obtain ⟨hu, hc⟩ := h.traced groups hg
    obtain ⟨hu', hc'⟩ := h'.traced groups hg
    exact ⟨congrArg _ (hc.trans hc'.symm), hu.trans hu'.symm⟩

theorem Realized.unique (h : Realized d as ts us) (h' : Realized d as ts' us') :
    ts = ts' ∧ us = us' := by
  induction h generalizing ts' us' with
  | nil =>
    cases h'
    exact ⟨rfl, rfl⟩
  | cons h _ ih =>
    cases h' with
    | cons h' rest' =>
      obtain ⟨rfl, rfl⟩ := h.unique h'
      obtain ⟨rfl, rfl⟩ := ih rest'
      exact ⟨rfl, rfl⟩

theorem Realized.exists_state (h : Realized d as ts us) (ha : a ∈ as) :
    ∃ i, d.states.state? i = some a.state := by
  induction h with
  | nil => cases ha
  | cons h _ ih =>
    rcases List.mem_cons.mp ha with rfl | ha
    · exact ⟨_, h.state⟩
    · exact ih ha

/-- The state of an arrival that joins others is among their states. -/
theorem exists_mem_join (as : List Arrival) (a : Arrival) :
    ∃ b ∈ Arrival.join as a, b.state = a.state := by
  unfold Arrival.join
  split
  · rename_i hmeet
    obtain ⟨b, hb, hstate⟩ := List.any_eq_true.mp hmeet
    exact ⟨b, hb, of_decide_eq_true hstate⟩
  · exact ⟨a, by simp, rfl⟩

/-- Those that were there before another one joined them are realized too. -/
theorem Realized.of_join (h : Realized d (Arrival.join as a) ts us) :
    ∃ ts' us', Realized d as ts' us' := by
  unfold Arrival.join at h
  split at h
  · exact ⟨ts, us, h⟩
  · cases h with
    | cons _ rest => exact ⟨_, _, rest⟩

theorem Realized.of_foldl_join (h : Realized d (bs.foldl Arrival.join as) ts us) :
    ∃ ts' us', Realized d as ts' us' := by
  induction bs generalizing as with
  | nil => exact ⟨ts, us, h⟩
  | cons b bs ih =>
    obtain ⟨ts', us', h⟩ := ih h
    exact h.of_join

/-- With one more arrival realized, either its state was met, or its thread is in front. -/
theorem Realized.join_cases (hs : Realized d as s.threads s.updates)
    (h : Realized d (Arrival.join as a) ts us) : ∃ i, d.states.state? i = some a.state ∧
      (s.hasThread i = true ∧ ts = s.threads ∧ us = s.updates ∨
        s.hasThread i = false ∧ ∃ captures u, Realizes d a ⟨i, captures⟩ u ∧
          ts = ⟨i, captures⟩ :: s.threads ∧ us = u.toList ++ s.updates) := by
  obtain ⟨b, hb, hstate⟩ := exists_mem_join as a
  obtain ⟨i, hi⟩ := h.exists_state hb
  rw [hstate] at hi
  rw [hs.join_eq hi] at h
  refine ⟨i, hi, ?_⟩
  cases hmeet : s.hasThread i with
  | true =>
    rw [hmeet, if_pos rfl] at h
    obtain ⟨rfl, rfl⟩ := h.unique hs
    exact .inl ⟨rfl, rfl, rfl⟩
  | false =>
    rw [hmeet, if_neg Bool.false_ne_true] at h
    cases h with
    | @cons _ t u _ _ _ ht rest =>
      obtain ⟨rfl, rfl⟩ := rest.unique hs
      obtain ⟨state, captures⟩ := t
      obtain rfl : state = i := Interner.get?_inj ht.state hi
      exact .inr ⟨rfl, captures, u, ht, rfl, rfl⟩

/-! ## Parts of a step again -/

theorem advance_again {target : Nfa.State} (hs : Realized d as s.threads s.updates)
    (h : Realized d (Arrival.join as ⟨target, some m⟩) ts us) :
    Gives (advance s m target) d { s with threads := ts, updates := us } d := by
  obtain ⟨i, hi, ⟨hmeet, rfl, rfl⟩ | ⟨hmeet, captures, u, ht, rfl, rfl⟩⟩ := hs.join_cases h
  all_goals
    refine gives_bind.mpr ⟨i, d, internState_again hi, ?_⟩
    rw [hmeet]
  · rw [if_pos rfl]
    exact gives_pure.mpr ⟨rfl, rfl⟩
  · rw [if_neg Bool.false_ne_true, gives_get_bind]
    cases htr : d.tracer with
    | none =>
      obtain ⟨hc, b, rfl, hb⟩ := ht.tracked (traced?_of_tracer htr)
      obtain rfl : captures = #[] := hc
      exact gives_bind.mpr ⟨b, d, internBoundaries_again hb, gives_pure.mpr ⟨rfl, rfl⟩⟩
    | some finder =>
      obtain ⟨rfl, hc⟩ := ht.traced _ (traced?_of_tracer_eq_some htr)
      obtain rfl : captures = m.thread.captures.advance m.transition.boundaries := hc
      exact gives_pure.mpr ⟨rfl, rfl⟩

theorem makeMoves_again {moves : List Move} {x : Option Accept}
    (hs : Realized d as s.threads s.updates)
    (h : Realized d ((arrivals context moves).foldl Arrival.join as) ts us)
    (hx : match firstFinal moves with
      | none => x = s.accept
      | some m => ∃ y, x = some y ∧ Reports d m y) :
    Gives (makeMoves context moves s) d { threads := ts, updates := us, accept := x } d := by
  induction moves generalizing s as with
  | nil =>
    obtain ⟨rfl, rfl⟩ := h.unique hs
    obtain rfl : x = s.accept := hx
    exact gives_pure.mpr ⟨rfl, rfl⟩
  | cons m moves ih =>
    unfold makeMoves
    unfold arrivals at h
    unfold firstFinal at hx
    cases ht : m.transition.target with
    | final =>
      rw [List.find?_cons_of_pos (by simp [ht])] at hx
      obtain ⟨y, rfl, hy⟩ := hx
      simp only [ht] at h ⊢
      obtain ⟨rfl, rfl⟩ := h.unique hs
      exact gives_bind.mpr ⟨y, d, accept_again hy, gives_pure.mpr ⟨rfl, rfl⟩⟩
    | next main lookAheads =>
      rw [List.find?_cons_of_neg (by simp [ht])] at hx
      simp only [ht, List.foldl_cons] at h ⊢
      obtain ⟨ts1, us1, h1⟩ := h.of_foldl_join
      exact gives_bind.mpr ⟨_, d, advance_again hs h1, ih h1 h hx⟩

theorem initialThread_again {i : Nat} (h : d.states.state? i = some (n.initial context)) :
    Gives (initialThread context) d ⟨i, d.traced?.elim #[] RelativeCaptures.fresh⟩ d := by
  refine gives_bind.mpr ⟨i, d, internState_again h,
    gives_bind.mpr ⟨d.traced?.elim #[] RelativeCaptures.fresh, d, ?_, gives_pure.mpr ⟨rfl, rfl⟩⟩⟩
  unfold freshCaptures
  rw [gives_get_bind]
  refine gives_pure.mpr ⟨?_, rfl⟩
  unfold Discovered.traced?
  cases d.tracer <;> rfl

theorem inject_again (hs : Realized d as s.threads s.updates)
    (h : Realized d (Arrival.join as ⟨n.initial context, none⟩) ts us)
    (h0 : d.boundaries.get? noBoundaries = some .empty) :
    Gives (inject context s) d { s with threads := ts, updates := us } d := by
  obtain ⟨i, hi, ⟨hmeet, rfl, rfl⟩ | ⟨hmeet, captures, u, ht, rfl, rfl⟩⟩ := hs.join_cases h
  all_goals
    refine gives_bind.mpr ⟨_, d, initialThread_again hi, ?_⟩
    rw [hmeet]
  · rw [if_pos rfl]
    exact gives_pure.mpr ⟨rfl, rfl⟩
  · rw [if_neg Bool.false_ne_true, gives_get_bind]
    cases htr : d.tracer with
    | none =>
      have htraced := traced?_of_tracer htr
      obtain ⟨hc, b, rfl, hb⟩ := ht.tracked htraced
      obtain rfl : captures = #[] := hc
      obtain rfl : b = noBoundaries := Interner.get?_inj hb h0
      rw [htraced]
      exact gives_pure.mpr ⟨rfl, rfl⟩
    | some finder =>
      have htraced := traced?_of_tracer_eq_some htr
      obtain ⟨rfl, hc⟩ := ht.traced _ htraced
      obtain rfl : captures = RelativeCaptures.fresh finder.groups := hc
      rw [htraced]
      exact gives_pure.mpr ⟨rfl, rfl⟩

/-! ## The whole step again -/

section Step

variable {injecting : Bool} {tracker : BitSet} {c : Nat} {moves : List Move} {threads : List Thread}
  {o : StateId × List SlotUpdate × Option Accept}

/-- Where moves lead, a step arrives without discovering anything. -/
theorem arrive_again (h0 : d.boundaries.get? noBoundaries = some .empty)
    (h : Realized d (arrived n moves injecting tracker c) ts us) {x : Option Accept}
    (hx : match firstFinal (allowing moves c) with
      | none => x = none
      | some m => ∃ y, x = some y ∧ Reports d m y) :
    Gives (arrive moves injecting (n.lookBehinds.advance tracker c) c) d
      { threads := ts, updates := us, accept := x } d := by
  unfold arrived at h
  cases hst : stillInjecting moves injecting c with
  | true =>
    simp only [hst, ite_true] at h
    obtain ⟨ts1, us1, h1⟩ := h.of_join
    have hmoves := makeMoves_again (s := {}) .nil h1 hx
    refine gives_bind.mpr ⟨_, d, hmoves, ?_⟩
    rw [makeMoves_injecting hmoves, hst, if_pos rfl]
    exact inject_again h1 h h0
  | false =>
    simp only [hst, Bool.false_eq_true, ite_false] at h
    have hmoves := makeMoves_again (s := {}) .nil h hx
    refine gives_bind.mpr ⟨_, d, hmoves, ?_⟩
    rw [makeMoves_injecting hmoves, hst, if_neg Bool.false_ne_true]
    exact gives_pure.mpr ⟨rfl, rfl⟩

theorem step_again (h0 : d.boundaries.get? noBoundaries = some .empty)
    (h : Leads p d moves injecting tracker c o) :
    Gives (step p moves injecting tracker (.single c)) d ⟨.single c, o.1, o.2.1, o.2.2⟩ d := by
  obtain ⟨i, us', x⟩ := o
  obtain ⟨hacc, ⟨ts, us, hts, rfl, htarget⟩, hcount⟩ := h
  have harrive := arrive_again h0 hts hacc
  refine gives_bind.mpr ⟨_, d, harrive, gives_bind.mpr ⟨i, d, ?_, gives_pure.mpr ⟨rfl, rfl⟩⟩⟩
  change Gives (target p ⟨ts, us, x⟩ (injecting && x.isNone) (n.lookBehinds.advance tracker c)) d i d
  obtain ⟨-, -, hstill, -⟩ := arrive_gives harrive h0
  rw [show (injecting && x.isNone) = stillInjecting moves injecting c from hstill]
  unfold target
  rw [if_neg (Nat.not_lt.mpr (hts.length_eq ▸ hcount))]
  rcases htarget with ⟨rfl, rfl⟩ | ⟨hne, hkey⟩
  · exact gives_pure.mpr ⟨rfl, rfl⟩
  · rw [if_neg (by simpa using hne)]
    exact internKey_again hkey

theorem mapM_movesOf {slot : Nat} (h : MovesOf d slot threads moves) :
    ∃ mss : List (List Move), moves = mss.flatten ∧
      Gives ((threads.zipIdx slot).mapM fun (thread, slot) =>
        (liftM ((d.states.transitions thread.state).map fun ts : List Nfa.Transition =>
          ts.map fun transition => { slot, thread, transition : Move }) : Build n (List Move)))
        d mss d := by
  induction h with
  | nil => exact ⟨[], rfl, gives_pure.mpr ⟨rfl, rfl⟩⟩
  | @cons slot t s trs _ _ hs htrs _ ih =>
    obtain ⟨mss, rfl, hmss⟩ := ih
    refine ⟨trs.map (fun transition => { slot, thread := t, transition }) :: mss, rfl, ?_⟩
    rw [List.zipIdx_cons, List.mapM_cons]
    refine gives_bind.mpr ⟨_, d, gives_liftM.mpr ⟨?_, rfl⟩, gives_bind.mpr ⟨_, d, hmss,
      gives_pure.mpr ⟨rfl, rfl⟩⟩⟩
    rw [Nfa.States.transitions_eq hs, htrs]
    rfl

theorem allMoves_again (h : MovesOf d 0 threads moves) : Gives (allMoves threads) d moves d := by
  obtain ⟨mss, rfl, hmss⟩ := mapM_movesOf h
  unfold allMoves
  rw [gives_get_bind]
  exact gives_bind.mpr ⟨mss, d, hmss, gives_pure.mpr ⟨rfl, rfl⟩⟩

end Step

/-! ## Tables -/

end Build

/-- The transition on `c` as a search by halving finds it in sorted transitions: the one after those
that end before `c`, if it has `c`. -/
def State.bisect? (s : State) (c : Nat) : Option Transition :=
  s.transitions[(s.transitions.takeWhile (·.range.hi < c)).length]?.filter (·.range.contains c)

theorem Transition.Ascends.find?_eq_bisect {ts : List Transition} (h : Ascends ts) (c : Nat) :
    ts.find? (·.range.contains c) =
      ts[(ts.takeWhile (·.range.hi < c)).length]?.filter (·.range.contains c) := by
  induction ts with
  | nil => rfl
  | cons t ts ih =>
    obtain ⟨hbefore, hpairwise⟩ := List.pairwise_cons.mp h.pairwise
    rw [List.find?_cons, List.takeWhile_cons]
    by_cases hends : t.range.hi < c
    · have hmiss : t.range.contains c = false := by
        rw [Bool.eq_false_iff, ne_eq, CodePointRange.contains_iff]
        omega
      rw [hmiss, if_pos (decide_eq_true hends), List.length_cons, List.getElem?_cons_succ]
      exact ih ⟨hpairwise, fun u hu => h.le_max u (List.mem_cons_of_mem _ hu)⟩
    · rw [if_neg (by simpa using hends), List.length_nil, List.getElem?_cons_zero, Option.filter_some]
      cases hhas : t.range.contains c with
      | true => rfl
      | false =>
        refine List.find?_eq_none.mpr fun u hu huc => ?_
        have hlt := hbefore u hu
        rw [Bool.eq_false_iff, ne_eq, CodePointRange.contains_iff] at hhas
        rw [CodePointRange.contains_iff] at huc
        omega

theorem Build.Expands.ascends {p : Plan} {d : Discovered n} {k : Key} {s : State}
    (h : Build.Expands p d k s) : Transition.Ascends s.transitions := by
  cases k with
  | dead =>
    cases h
    exact Transition.ascends_nil
  | lead tracker => exact Build.ReadsAhead.ascends h
  | search threads injecting tracker =>
    obtain ⟨moves, h⟩ := h
    exact h.ascends

namespace Build

variable {p : Plan} {d : Discovered n}

/-- Follows all threads on the code point `c` alone. -/
def follow (p : Plan) (threads : List Thread) (injecting : Bool) (tracker : BitSet) (c : Nat) :
    Build n Transition := do
  step p (← allMoves threads) injecting tracker (.single c)

/-- The table of the state `s` for the key `k` decides every code point as following the threads on
it does, which discovers nothing beyond `d`. A transition is left out only where nothing follows and
nothing has matched. -/
def Tabulates (p : Plan) (d : Discovered n) (s : State) : Key → Prop
  | .dead => ∀ c, s.transition? c = none
  | .lead tracker => n.lookBehinds.isEmpty = false → ∀ c ≤ maxCodePoint,
      ∃ t, s.transition? c = some t ∧ t.updates = [] ∧ t.accept = none ∧
        d.keys.get? t.target = some (.lead (n.lookBehinds.advance tracker c))
  | .search threads injecting tracker => ∀ c ≤ maxCodePoint,
      ∃ t, Gives (follow p threads injecting tracker c) d t d ∧
        (s.transition? c).map Transition.outcome =
          if t.target = dead ∧ t.accept = none then none else some t.outcome

theorem Searches.tabulates {threads : List Thread} {injecting : Bool} {tracker : BitSet}
    {moves : List Move} {s : State} (hv : Valid p d)
    (h : Searches p d threads injecting tracker moves s) :
    Tabulates p d s (.search threads injecting tracker) := by
  intro c hc
  obtain ⟨o, hleads, htable⟩ := h.transitions c hc
  exact ⟨_, gives_bind.mpr ⟨moves, d, allMoves_again h.ofThreads, step_again hv.noBoundaries hleads⟩,
    htable⟩

theorem ReadsAhead.tabulates {tracker : BitSet} {s : State} (h : ReadsAhead p d tracker s) :
    Tabulates p d s (.lead tracker) := by
  intro hne c hc
  have htransitions := h.transitions
  rw [if_neg (by simp [hne])] at htransitions
  obtain ⟨t, ht, hkey⟩ := htransitions c hc
  obtain ⟨hupdates, haccept⟩ := h.silent.2.2 t (List.mem_of_find?_eq_some ht)
  exact ⟨t, ht, hupdates, haccept, hkey⟩

theorem Expands.tabulates {k : Key} {s : State} (hv : Valid p d) (h : Expands p d k s) :
    Tabulates p d s k := by
  cases k with
  | dead =>
    cases h
    exact fun _ => rfl
  | lead tracker => exact ReadsAhead.tabulates h
  | search threads injecting tracker =>
    obtain ⟨moves, h⟩ := h
    exact h.tabulates hv

end Build

/-- Every state of an automaton that was built has a key, and its table, which is sorted, decides every
code point as the threads of the key do. -/
theorem build_tabulates {states : Nfa.States n} {p : Plan} {tracer : Option TraceFinder} {a : Dfa}
    (ha : (build states p tracer).1 = .ok a) :
    ∃ d : Discovered n, Build.Gives (Build.dfa p) (Discovered.start states tracer) a d ∧
      d.keys.get? dead = some .dead ∧
      ∀ i < a.size, Transition.Ascends (a.state i).transitions ∧
        (∀ c, (a.state i).transition? c = (a.state i).bisect? c) ∧
        ∃ k, d.keys.get? i = some k ∧ Build.Tabulates p d (a.state i) k := by
  have hrun : Build.Gives (Build.dfa p) (Discovered.start states tracer) a _ := Prod.ext ha rfl
  obtain ⟨hbuilt, -⟩ := Build.built_of_gives hrun
  refine ⟨_, hrun, hbuilt.valid.dead, fun i hi => ?_⟩
  have hlt := hbuilt.size ▸ (show i < a.states.size from hi)
  have hk := Array.getElem?_eq_getElem hlt
  have hexpands := hbuilt.expands i _ hk
  exact ⟨hexpands.ascends, hexpands.ascends.find?_eq_bisect, _, hk,
    hexpands.tabulates hbuilt.valid⟩

set_option maxRecDepth 100000 in
theorem build_tabulates_lookBehind : ∃ (n : Nfa) (a : Dfa) (d : Discovered n),
    (build (.empty : Nfa.States n) ⟨false, .dfa, 3000, 255⟩ none).1 = .ok a ∧ 2 < a.size ∧
      n.lookBehinds.isEmpty = false ∧
      Build.Gives (Build.dfa ⟨false, .dfa, 3000, 255⟩) (Discovered.start .empty none) a d ∧
      ∃ k, d.keys.get? a.rootStart = some k ∧
        Build.Tabulates ⟨false, .dfa, 3000, 255⟩ d (a.state a.rootStart) k := by
  obtain ⟨tree, htree⟩ := exists_ok
    (x := Pattern.parse "(?<=a)(b|c)" {} {} Property.standard) (by decide +kernel)
  obtain ⟨n, hn⟩ := exists_ok (x := Nfa.ofTree tree false 3500)
    (of_toOption (P := fun tree => (Nfa.ofTree tree false 3500).isOk) (by decide +kernel) htree)
  have hcheck := of_toOption (P := fun tree => ∀ n ∈ (Nfa.ofTree tree false 3500).toOption,
    n.lookBehinds.isEmpty = false ∧
    (build (.empty : Nfa.States n) ⟨false, .dfa, 3000, 255⟩ none).1.isOk ∧
      ∀ a ∈ (build (.empty : Nfa.States n) ⟨false, .dfa, 3000, 255⟩ none).1.toOption,
        2 < a.size ∧ a.rootStart < a.size)
    (by decide +kernel) htree n (by rw [hn]; rfl)
  obtain ⟨hne, hok, hsize⟩ := hcheck
  obtain ⟨a, ha⟩ := exists_ok hok
  obtain ⟨hsize, hroot⟩ := of_toOption hsize ha
  obtain ⟨d, hgives, -, htables⟩ := build_tabulates ha
  exact ⟨n, a, d, ha, hsize, hne, hgives, (htables _ hroot).2.2⟩

end Dfa
end PatternAutomata
