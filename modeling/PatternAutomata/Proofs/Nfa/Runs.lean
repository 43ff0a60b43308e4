import PatternAutomata.Dfa.Search
import PatternAutomata.Nfa.States
import PatternAutomata.Proofs.Choice
import PatternAutomata.Proofs.LookBehind
import PatternAutomata.Proofs.Results

/-!
# Runs of the nondeterministic automaton

`Finds` says what comes of trying the transitions of a state in their order, and those of the states
they lead to. Since what stands after the first success is not tried, states that are too large to
have transitions do no harm there.
-/

namespace PatternAutomata.Nfa

variable {n : Nfa}

/-- The captures after boundaries, applied one after the other from a position on. -/
def replay : List Boundaries → Nat → Captures → Captures
  | [], _, captures => captures
  | b :: bs, position, captures => replay bs (position + 1) (b.apply captures position)

/-- The context of a position where the tracker is as given. -/
def contextOf (n : Nfa) (atStart : Bool) (tracker : BitSet) : Context :=
  { atStart, satisfied := n.lookBehinds.satisfied tracker }

/-- The context after a text. -/
def contextAfter (n : Nfa) (before : List Char) : Context :=
  n.contextOf (before.isEmpty && n.usesStart) (n.lookBehinds.after before)

/-! ## Trying transitions -/

namespace Transition

/-- What trying a transition at the end of the input gives. -/
def atEnd (t : Transition) : Option (List Boundaries) :=
  if t.acceptsEnd then some [t.boundaries] else none

/-- What trying a transition gives before the character `c`, where `next` says what the states give
after it. -/
def Tries (n : Nfa) (next : State → Option (List Boundaries) → Prop) (tracker : BitSet) (c : Char)
    (t : Transition) (r : Option (List Boundaries)) : Prop :=
  if t.cls.contains c.toNat then
    match t.target with
    | .final => r = some [t.boundaries]
    | .next main lookAheads => ∃ r',
      next { main, lookAheads, context :=
        n.contextOf false (n.lookBehinds.advance tracker c.toNat) } r' ∧
        r = r'.map (t.boundaries :: ·)
  else r = none

end Transition

/-- Trying the transitions of a state in front of the rest of the input gives `r`. -/
def Finds (n : Nfa) : List Char → BitSet → State → Option (List Boundaries) → Prop
  | [], _, s, r => ∃ ts, n.transitions s = .ok ts ∧ FirstOf (fun t r => r = t.atEnd) ts r
  | c :: rest, tracker, s, r => ∃ ts, n.transitions s = .ok ts ∧
    FirstOf (Transition.Tries n (n.Finds rest (n.lookBehinds.advance tracker c.toNat)) tracker c)
      ts r

theorem Finds.det {rest : List Char} {tracker : BitSet} {s : State}
    {r r' : Option (List Boundaries)} (h : n.Finds rest tracker s r)
    (h' : n.Finds rest tracker s r') : r = r' := by
  induction rest generalizing tracker s r r' with
  | nil =>
    obtain ⟨ts, hts, hfirst⟩ := h
    obtain ⟨_, hts', hfirst'⟩ := h'
    cases hts.symm.trans hts'
    exact FirstOf.det (fun _ _ _ _ h h' => h.trans h'.symm) hfirst hfirst'
  | cons c rest ih =>
    obtain ⟨ts, hts, hfirst⟩ := h
    obtain ⟨_, hts', hfirst'⟩ := h'
    cases hts.symm.trans hts'
    refine FirstOf.det (fun t _ r r' ht ht' => ?_) hfirst hfirst'
    unfold Transition.Tries at ht ht'
    split at ht
    · rename_i hc
      rw [if_pos hc] at ht'
      cases htarget : t.target with
      | final =>
        simp only [htarget] at ht ht'
        exact ht.trans ht'.symm
      | next main lookAheads =>
        simp only [htarget] at ht ht'
        obtain ⟨_, hnext, rfl⟩ := ht
        obtain ⟨_, hnext', rfl⟩ := ht'
        rw [ih hnext hnext']
    · rename_i hc
      rw [if_neg hc] at ht'
      exact ht.trans ht'.symm

/-- Beginning a match at a position gives captures, or nothing. -/
def StartFinds (n : Nfa) (input : List Char) (position : Nat) (r : Option Captures) : Prop :=
  ∃ r', n.Finds (input.drop position) (n.lookBehinds.after (input.take position))
    (n.initial (n.contextAfter (input.take position))) r' ∧
      r = r'.map (replay · position (.unset n.groupCount))

theorem StartFinds.det {input : List Char} {position : Nat} {r r' : Option Captures}
    (h : n.StartFinds input position r) (h' : n.StartFinds input position r') : r = r' := by
  obtain ⟨_, hfinds, rfl⟩ := h
  obtain ⟨_, hfinds', rfl⟩ := h'
  rw [hfinds.det hfinds']

/-! ## Runs -/

/-- From a state, in front of the rest of the input, a run takes the transitions with the indices
`choices` one after the other, up to one that matches; `bs` are their boundaries. -/
inductive Run (n : Nfa) : List Char → BitSet → State → List Nat → List Boundaries → Prop
  | atEnd {tracker : BitSet} {s : State} {ts : List Transition} {i : Nat} {t : Transition}
    (hs : n.transitions s = .ok ts) (ht : ts[i]? = some t) (hfinal : t.target = .final)
    (hend : t.acceptsEnd = true) : Run n [] tracker s [i] [t.boundaries]
  | before {c : Char} {rest : List Char} {tracker : BitSet} {s : State} {ts : List Transition}
    {i : Nat} {t : Transition} (hs : n.transitions s = .ok ts) (ht : ts[i]? = some t)
    (hfinal : t.target = .final) (hc : t.cls.contains c.toNat = true) :
    Run n (c :: rest) tracker s [i] [t.boundaries]
  | step {c : Char} {rest : List Char} {tracker : BitSet} {s : State} {ts : List Transition}
    {i : Nat} {t : Transition} {main : NodeId} {lookAheads : List NodeId} {choices : List Nat}
    {bs : List Boundaries} (hs : n.transitions s = .ok ts) (ht : ts[i]? = some t)
    (hnext : t.target = .next main lookAheads) (hc : t.cls.contains c.toNat = true)
    (hrest : Run n rest (n.lookBehinds.advance tracker c.toNat)
      { main, lookAheads, context :=
        n.contextOf false (n.lookBehinds.advance tracker c.toNat) } choices bs) :
    Run n (c :: rest) tracker s (i :: choices) (t.boundaries :: bs)

/-- What `Finds` gives is the run that comes first in the order of the choices, if there is one. -/
def FirstRun (n : Nfa) (rest : List Char) (tracker : BitSet) (s : State) :
    Option (List Boundaries) → Prop
  | none => ∀ choices bs, ¬Run n rest tracker s choices bs
  | some bs => ∃ choices, Run n rest tracker s choices bs ∧
    ∀ choices' bs', Run n rest tracker s choices' bs' →
      choices = choices' ∧ bs = bs' ∨ choices < choices'

/-! ### What holds of all transitions -/

section Induction

variable {context : Context} {T : Task → Prop} {R : Route → Prop} {P : Combination → Prop}
  {Q : Transition → Prop}

theorem Found.mem_add {f : Found} {t u : Transition} (h : u ∈ (f.add t).transitions) :
    u ∈ f.transitions ∨ u = t := by
  unfold add at h
  split at h
  · exact .inl h
  · split at h
    · exact .inl h
    · exact (List.mem_cons.mp h).symm

/-- From tasks of the kind `T` there are only routes of the kind `R`, and tasks of the kind `T` run
the look-aheads that begin on these. -/
structure Leads (n : Nfa) (context : Context) (T : Task → Prop) (R : Route → Prop) : Prop where
  routes : ∀ task, T task → ∀ work found, n.routes context task work = .ok found →
    ∀ r ∈ found.1, R r
  spawned : ∀ r, R r → ∀ id ∈ r.spawned, T (n.runTask id)

/-- What is kept when a route is added holds of every transition that a combination is completed
to. -/
theorem complete_induction (hleads : Leads n context T R)
    (hadd : ∀ c r c', P c → R r → c.addLookAhead? n r = some c' → P c')
    (hQ : ∀ c, P c → Q (c.transition n)) {fuel : Nat} {c : Combination} {todo : List Task}
    {f f' : Found} (h : complete n context fuel c todo f = .ok f') (hc : P c)
    (htodo : ∀ task ∈ todo, T task) (hf : ∀ t ∈ f.transitions, Q t) :
    ∀ t ∈ f'.transitions, Q t := by
  induction fuel generalizing c todo f f' with
  | zero => cases h
  | succ fuel ih =>
    cases todo with
    | nil =>
      cases h
      intro t ht
      rcases Found.mem_add ht with ht | rfl
      · exact hf t ht
      · exact hQ c hc
    | cons task todo =>
      obtain ⟨⟨routes, work⟩, hroutes, h⟩ := bind_eq_ok.mp h
      have hfits := hleads.routes task (htodo task (by simp)) _ _ hroutes
      refine foldlM_eq_ok (P := fun f => ∀ t ∈ f.transitions, Q t) (fun f r f' hf hr h => ?_) hf h
      split at h
      · rename_i c' hc'
        refine ih h (hadd c r c' hc (hfits r hr) hc') (fun task htask => ?_) hf
        rcases List.mem_append.mp htask with htask | htask
        · exact htodo task (by simp [htask])
        · obtain ⟨id, hid, rfl⟩ := List.mem_map.mp htask
          exact hleads.spawned r (hfits r hr) id hid
      · cases h
        exact hf

/-- What holds of each route of the main pattern, and is kept when a route is added, holds of every
transition. -/
theorem transitions_induction {s : State} (hleads : Leads n s.context T R)
    (hroutes : ∀ found, n.mainRoutes s = .ok found → ∀ r ∈ found.1, R r)
    (hrunning : ∀ id ∈ s.lookAheads, T (.leave id)) (hmain : ∀ r, R r → P (.ofMain n r))
    (hadd : ∀ c r c', P c → R r → c.addLookAhead? n r = some c' → P c')
    (hQ : ∀ c, P c → Q (c.transition n)) {ts : List Transition}
    (h : n.transitions s = .ok ts) : ∀ t ∈ ts, Q t := by
  obtain ⟨⟨routes, work⟩, hfound, h⟩ := bind_eq_ok.mp h
  obtain ⟨found, hfold, h⟩ := bind_eq_ok.mp h
  cases h
  have hfits := hroutes _ hfound
  intro t ht
  refine foldlM_eq_ok (P := fun f : Found => ∀ t ∈ f.transitions, Q t) (fun f r f' hf hr h => ?_)
    (by simp) hfold t (List.mem_reverse.mp ht)
  refine complete_induction hleads hadd hQ h (hmain r (hfits r hr)) (fun task htask => ?_) hf
  rcases List.mem_append.mp htask with htask | htask
  · obtain ⟨id, hid, rfl⟩ := List.mem_map.mp htask
    exact hrunning id hid
  · obtain ⟨id, hid, rfl⟩ := List.mem_map.mp htask
    exact hleads.spawned r (hfits r hr) id hid

end Induction

/-- Only what matches may end at the end of the input. -/
theorem Combination.final_of_acceptsEnd {c : Combination} (h : (c.transition n).acceptsEnd = true) :
    (c.transition n).target = .final := by
  unfold transition at h ⊢
  split
  · rfl
  · rename_i hne
    split at h
    · rename_i hmain hlook
      exact absurd hlook (hne hmain)
    · cases h

theorem final_of_acceptsEnd {s : State} {ts : List Transition} (h : n.transitions s = .ok ts)
    {t : Transition} (ht : t ∈ ts) (hend : t.acceptsEnd = true) : t.target = .final := by
  have hleads : Leads n s.context (fun _ => True) (fun _ => True) :=
    ⟨fun _ _ _ _ _ _ _ => trivial, fun _ _ _ _ => trivial⟩
  exact transitions_induction (P := fun _ => True)
    (Q := fun t => t.acceptsEnd = true → t.target = .final) hleads (fun _ _ _ _ => trivial)
    (fun _ _ => trivial) (fun _ _ => trivial) (fun _ _ _ _ _ _ => trivial)
    (fun _ _ => Combination.final_of_acceptsEnd) h t ht hend

/-! ### The first run -/

/-- Choices that begin with the first transition that gives anything come first. -/
theorem choices_of_firstOf {A : Transition → Option (List Boundaries) → Prop}
    {R : Transition → List Nat → List Boundaries → Prop} {ts : List Transition}
    (hnone : ∀ t ∈ ts, A t none → ∀ is bs, ¬R t is bs)
    (hsome : ∀ t ∈ ts, ∀ bs, A t (some bs) → ∃ is, R t is bs ∧
      ∀ is' bs', R t is' bs' → is = is' ∧ bs = bs' ∨ is < is') {r : Option (List Boundaries)}
    (h : FirstOf A ts r) :
    match r with
    | none => ∀ (i : Nat) t, ts[i]? = some t → ∀ is bs, ¬R t is bs
    | some bs => ∃ (i : Nat) (t : Transition) (is : List Nat), ts[i]? = some t ∧ R t is bs ∧
      ∀ (i' : Nat) t' is' bs', ts[i']? = some t' → R t' is' bs' →
        i :: is = i' :: is' ∧ bs = bs' ∨ i :: is < i' :: is' := by
  cases r with
  | none =>
    intro i t ht
    have hmem := List.mem_of_getElem? ht
    exact hnone t hmem (FirstOf.none_iff.mp h t hmem)
  | some bs =>
    obtain ⟨before, t, after, rfl, hbefore, ht⟩ := FirstOf.some_iff.mp h
    obtain ⟨is, hr, hmin⟩ := hsome t (by simp) bs ht
    refine ⟨before.length, t, is, by simp, hr, fun i' t' is' bs' hi' hr' => ?_⟩
    rcases Nat.lt_trichotomy i' before.length with hlt | rfl | hlt
    · rw [List.getElem?_append_left hlt] at hi'
      have hmem := List.mem_of_getElem? hi'
      exact absurd hr' (hnone t' (by simp [hmem]) (hbefore t' hmem) is' bs')
    · rw [List.getElem?_append_right (Nat.le_refl _), Nat.sub_self] at hi'
      cases hi'
      rcases hmin is' bs' hr' with ⟨rfl, rfl⟩ | hlt
      · exact .inl ⟨rfl, rfl⟩
      · exact .inr (List.cons_lt_cons_iff.mpr (.inr ⟨rfl, hlt⟩))
    · exact .inr (List.cons_lt_cons_iff.mpr (.inl hlt))

/-- What is left of a run at the end of the input, after its last transition was chosen. -/
def EndsAt (t : Transition) (is : List Nat) (bs : List Boundaries) : Prop :=
  t.target = .final ∧ t.acceptsEnd = true ∧ is = [] ∧ bs = [t.boundaries]

theorem run_nil_iff {tracker : BitSet} {s : State} {choices : List Nat} {bs : List Boundaries}
    {ts : List Transition} (hs : n.transitions s = .ok ts) :
    Run n [] tracker s choices bs ↔
      ∃ i t is, choices = i :: is ∧ ts[i]? = some t ∧ EndsAt t is bs := by
  constructor
  · rintro ⟨hs', ht, hfinal, hend⟩
    cases hs.symm.trans hs'
    exact ⟨_, _, [], rfl, ht, hfinal, hend, rfl, rfl⟩
  · rintro ⟨i, t, is, rfl, ht, hfinal, hend, rfl, rfl⟩
    exact .atEnd hs ht hfinal hend

/-- What is left of a run before the character `c`, after a transition was chosen. -/
def GoesOn (n : Nfa) (c : Char) (rest : List Char) (tracker : BitSet) (t : Transition)
    (is : List Nat) (bs : List Boundaries) : Prop :=
  t.cls.contains c.toNat = true ∧ match t.target with
    | .final => is = [] ∧ bs = [t.boundaries]
    | .next main lookAheads => ∃ bs', bs = t.boundaries :: bs' ∧
      Run n rest tracker { main, lookAheads, context := n.contextOf false tracker } is bs'

theorem run_cons_iff {c : Char} {rest : List Char} {tracker : BitSet} {s : State}
    {choices : List Nat} {bs : List Boundaries} {ts : List Transition}
    (hs : n.transitions s = .ok ts) :
    Run n (c :: rest) tracker s choices bs ↔
      ∃ i t is, choices = i :: is ∧ ts[i]? = some t ∧
        GoesOn n c rest (n.lookBehinds.advance tracker c.toNat) t is bs := by
  constructor
  · rintro (_ | ⟨hs', ht, hfinal, hc⟩ | ⟨hs', ht, hnext, hc, hrest⟩)
    · cases hs.symm.trans hs'
      exact ⟨_, _, [], rfl, ht, hc, by rw [hfinal]; exact ⟨rfl, rfl⟩⟩
    · cases hs.symm.trans hs'
      exact ⟨_, _, _, rfl, ht, hc, by rw [hnext]; exact ⟨_, rfl, hrest⟩⟩
  · rintro ⟨i, t, is, rfl, ht, hc, hgo⟩
    cases htarget : t.target with
    | final =>
      rw [htarget] at hgo
      obtain ⟨rfl, rfl⟩ := hgo
      exact .before hs ht htarget hc
    | next main lookAheads =>
      rw [htarget] at hgo
      obtain ⟨bs', rfl, hrest⟩ := hgo
      exact .step hs ht htarget hc hrest

/-- The run that comes first takes the first transition that gives anything, where `R` says what is
left of the runs after each transition. -/
theorem firstRun_of_firstOf {rest : List Char} {tracker : BitSet} {s : State}
    {A : Transition → Option (List Boundaries) → Prop}
    {R : Transition → List Nat → List Boundaries → Prop} {ts : List Transition}
    (hrun : ∀ choices bs, Run n rest tracker s choices bs ↔
      ∃ i t is, choices = i :: is ∧ ts[i]? = some t ∧ R t is bs)
    (hnone : ∀ t ∈ ts, A t none → ∀ is bs, ¬R t is bs)
    (hsome : ∀ t ∈ ts, ∀ bs, A t (some bs) → ∃ is, R t is bs ∧
      ∀ is' bs', R t is' bs' → is = is' ∧ bs = bs' ∨ is < is') {r : Option (List Boundaries)}
    (h : FirstOf A ts r) : FirstRun n rest tracker s r := by
  have hchoices := choices_of_firstOf hnone hsome h
  cases r with
  | none =>
    intro choices bs h
    obtain ⟨i, t, is, -, ht, hr⟩ := (hrun choices bs).mp h
    exact hchoices i t ht is bs hr
  | some bs =>
    obtain ⟨i, t, is, ht, hr, hmin⟩ := hchoices
    refine ⟨i :: is, (hrun _ _).mpr ⟨i, t, is, rfl, ht, hr⟩, fun choices' bs' h => ?_⟩
    obtain ⟨i', t', is', rfl, ht', hr'⟩ := (hrun choices' bs').mp h
    exact hmin i' t' is' bs' ht' hr'

section Tries

variable {next : State → Option (List Boundaries) → Prop} {c : Char} {rest : List Char}
  {tracker : BitSet} {t : Transition} {bs : List Boundaries}

theorem not_goesOn_of_tries
    (hnext : ∀ s r, next s r → FirstRun n rest (n.lookBehinds.advance tracker c.toNat) s r)
    (h : t.Tries n next tracker c none) (is : List Nat) (bs : List Boundaries) :
    ¬GoesOn n c rest (n.lookBehinds.advance tracker c.toNat) t is bs := by
  rintro ⟨hc, hgo⟩
  simp only [Transition.Tries, hc, ite_true] at h
  cases htarget : t.target with
  | final =>
    simp only [htarget] at h
    cases h
  | next main lookAheads =>
    simp only [htarget] at h hgo
    obtain ⟨r', hr', hmap⟩ := h
    obtain ⟨bs', -, hrest⟩ := hgo
    cases r' with
    | none => exact hnext _ _ hr' is bs' hrest
    | some b => cases hmap

theorem exists_goesOn_of_tries
    (hnext : ∀ s r, next s r → FirstRun n rest (n.lookBehinds.advance tracker c.toNat) s r)
    (h : t.Tries n next tracker c (some bs)) :
    ∃ is, GoesOn n c rest (n.lookBehinds.advance tracker c.toNat) t is bs ∧
      ∀ is' bs', GoesOn n c rest (n.lookBehinds.advance tracker c.toNat) t is' bs' →
        is = is' ∧ bs = bs' ∨ is < is' := by
  unfold Transition.Tries at h
  split at h
  · rename_i hc
    unfold GoesOn
    cases htarget : t.target with
    | final =>
      simp only [htarget] at h
      cases h
      exact ⟨[], ⟨hc, rfl, rfl⟩, fun is' bs' hr => .inl ⟨hr.2.1.symm, hr.2.2.symm⟩⟩
    | next main lookAheads =>
      simp only [htarget] at h
      obtain ⟨r', hr', hmap⟩ := h
      cases r' with
      | none => cases hmap
      | some bs' =>
        cases hmap
        obtain ⟨is, hrun, hmin⟩ := hnext _ _ hr'
        refine ⟨is, ⟨hc, bs', rfl, hrun⟩, ?_⟩
        rintro is' _ ⟨-, bs'', rfl, hrun'⟩
        exact (hmin is' bs'' hrun').imp_left fun h => ⟨h.1, by rw [h.2]⟩
  · cases h

end Tries

theorem firstRun_of_finds {rest : List Char} {tracker : BitSet} {s : State}
    {r : Option (List Boundaries)} (h : n.Finds rest tracker s r) :
    FirstRun n rest tracker s r := by
  induction rest generalizing tracker s r with
  | nil =>
    obtain ⟨ts, hs, hfirst⟩ := h
    refine firstRun_of_firstOf (fun _ _ => run_nil_iff hs) (fun t _ hnone is bs hr => ?_)
      (fun t ht bs hsome => ?_) hfirst
    · rw [Transition.atEnd, if_pos hr.2.1] at hnone
      cases hnone
    · unfold Transition.atEnd at hsome
      split at hsome
      · rename_i hend
        cases hsome
        exact ⟨[], ⟨final_of_acceptsEnd hs ht hend, hend, rfl, rfl⟩,
          fun is' bs' hr => .inl ⟨hr.2.2.1.symm, hr.2.2.2.symm⟩⟩
      · cases hsome
  | cons c rest ih =>
    obtain ⟨ts, hs, hfirst⟩ := h
    exact firstRun_of_firstOf (fun _ _ => run_cons_iff hs)
      (fun t _ => not_goesOn_of_tries fun _ _ => ih)
      (fun t _ bs => exists_goesOn_of_tries fun _ _ => ih) hfirst

end PatternAutomata.Nfa
