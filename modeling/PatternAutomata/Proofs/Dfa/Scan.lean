import PatternAutomata.Proofs.Captures
import PatternAutomata.Proofs.Dfa.Expansion

/-!
# Searching refines trying in order

A search with a finished automaton gives what trying gives: first the threads in their order, each
with its captures, and then, while threads may still begin, the later starts. The captures that the
search keeps stand for a match of a thread after those that are still running.
-/

namespace PatternAutomata.Dfa

open Build Nfa

variable {n : Nfa}

/-! ## Captures of threads -/

/-- The captures of a thread in a slot, when the search is at a position. -/
def held (a : Dfa) (d : Discovered n) (slots : Slots) (position slot : Nat) (t : Thread) :
    Captures :=
  match d.traced? with
  | none => a.slot slots slot
  | some _ => t.captures.resolve position

/-- With traces, no distance of a thread reaches the largest one. -/
def ShortDistances (d : Discovered n) : Prop :=
  ∀ groups, d.traced? = some groups → ∀ i k, d.keys.get? i = some k → ∀ t ∈ k.threads, ∀ j e : Nat,
    t.captures[j]? = some (some e) → e < RelativeCaptures.maxDistance

/-- Threads in slots from `slot` on, with their states and captures. -/
inductive Viewed (a : Dfa) (d : Discovered n) (slots : Slots) (position : Nat) :
    Nat → List Thread → List (Nfa.State × Captures) → Prop
  | nil {slot : Nat} : Viewed a d slots position slot [] []
  | cons {slot : Nat} {t : Thread} {s : Nfa.State} {ts : List Thread}
    {vs : List (Nfa.State × Captures)} (hs : d.states.state? t.state = some s)
    (rest : Viewed a d slots position (slot + 1) ts vs) :
    Viewed a d slots position slot (t :: ts) ((s, held a d slots position slot t) :: vs)

theorem Viewed.append {a : Dfa} {d : Discovered n} {slots : Slots} {position slot : Nat}
    {ts us : List Thread} {vs ws : List (Nfa.State × Captures)}
    (h : Viewed a d slots position slot ts vs)
    (h' : Viewed a d slots position (slot + ts.length) us ws) :
    Viewed a d slots position slot (ts ++ us) (vs ++ ws) := by
  induction h with
  | nil => simpa using h'
  | cons hs _ ih =>
    refine .cons hs (ih ?_)
    rwa [List.length_cons, ← Nat.add_assoc, Nat.add_right_comm] at h'

theorem resolve_fresh (groups position : Nat) :
    (RelativeCaptures.fresh groups).resolve position = .unset groups := by
  simp [RelativeCaptures.fresh, RelativeCaptures.resolve, Captures.unset]

theorem resolve_record (b : Boundaries) (captures : RelativeCaptures) (position : Nat) :
    (captures.record b).resolve position = b.apply (captures.resolve position) position := by
  refine Array.ext_getElem? fun i => ?_
  simp only [RelativeCaptures.resolve, RelativeCaptures.record, Boundaries.apply,
    Array.getElem?_map, Array.getElem?_mapIdx, Option.map_map]
  cases captures[i]? with
  | none => rfl
  | some e =>
    simp only [Option.map_some, Function.comp_apply]
    split
    · rfl
    · split <;> rfl

/-- Distances that are not too long grow by one with every character. -/
theorem resolve_advance {b : Boundaries} {captures : RelativeCaptures} (position : Nat)
    (h : ∀ j e : Nat, captures[j]? = some (some e) → e < RelativeCaptures.maxDistance) :
    (captures.advance b).resolve (position + 1) = b.apply (captures.resolve position) position := by
  rw [← resolve_record]
  refine Array.ext_getElem? fun i => ?_
  have hpos : 0 < RelativeCaptures.maxDistance := by decide
  have hlen : ∀ e : Option Nat, (∀ x, e = some x → x < RelativeCaptures.maxDistance) →
      (e.bind RelativeCaptures.lengthen).map (position + 1 - ·) = e.map (position - ·) := by
    intro e he
    cases e with
    | none => rfl
    | some x =>
      simp only [Option.bind_some, RelativeCaptures.lengthen, if_pos (he x rfl), Option.map_some,
        Nat.add_sub_add_right]
  simp only [RelativeCaptures.resolve, RelativeCaptures.advance, Array.getElem?_map,
    Option.map_map]
  cases hc : (captures.record b)[i]? with
  | none => rfl
  | some e =>
    rw [Option.map_some, Option.map_some, Function.comp_apply, hlen]
    rintro x rfl
    simp only [RelativeCaptures.record, Boundaries.apply, Array.getElem?_mapIdx] at hc
    cases hi : captures[i]? with
    | none => simp [hi] at hc
    | some y =>
      simp only [hi, Option.map_some, Option.some.injEq] at hc
      split at hc
      · cases hc
        exact hpos
      · split at hc
        · cases hc
        · exact h i x (hc ▸ hi)

/-! ## Arrivals -/

/-- The captures of an arrival after the character at `position`. -/
def Build.Arrival.captures (a : Dfa) (d : Discovered n) (slots : Slots) (position : Nat)
    (x : Arrival) : Captures :=
  x.move.elim (.unset n.groupCount) fun m =>
    m.transition.boundaries.apply (held a d slots position m.slot m.thread) position

section Arrivals

variable {p : Plan} {a : Dfa} {d : Discovered n} {slots : Slots} {position : Nat}

theorem held_of_reports (hb : Built p d a) {m : Move} {x : Accept} (h : Reports d m x) :
    a.resolve x slots position =
      m.transition.boundaries.apply (held a d slots position m.slot m.thread) position := by
  unfold held
  cases hg : d.traced? with
  | none =>
    obtain ⟨b, rfl, hbound⟩ := h.tracked hg
    have : a.boundaries.getD b .empty = m.transition.boundaries := by
      rw [hb.boundaries, Array.getD_eq_getD_getElem?]
      exact congrArg (Option.getD · _) hbound
    simp only [resolve, applyBoundaries, this]
  | some groups =>
    obtain ⟨i, rfl, hi⟩ := h.traced groups hg
    obtain ⟨finder, hf, hres⟩ := Option.bind_eq_some_iff.mp hi
    have hresults : a.results = some finder.results.items := by rw [hb.results, hf]; rfl
    have : finder.results.items.getD i #[] = m.thread.captures.record m.transition.boundaries := by
      rw [Array.getD_eq_getD_getElem?]
      exact congrArg (Option.getD · _) hres
    simp only [resolve, hresults, this]
    exact resolve_record ..

/-- A thread is one of those of a key that is numbered. -/
def InKey (d : Discovered n) (t : Thread) : Prop :=
  ∃ i k, d.keys.get? i = some k ∧ t ∈ k.threads

/-- A thread holds the captures of the arrival that it realizes, if its update stands where its slot
is. -/
theorem Build.Realizes.held_eq (hb : Built p d a) (hshort : ShortDistances d)
    (hg : ∀ groups, d.traced? = some groups → groups = n.groupCount) {x : Arrival} {t : Thread}
    {u : Option SlotUpdate} (h : Realizes d x t u) (hknown : ∀ m, x.move = some m → InKey d m.thread)
    {before later : List SlotUpdate} {slot : Nat} (hslot : d.traced? = none → slot = before.length) :
    held a d (a.moveSlots (before ++ (u.toList ++ later)) slots position) (position + 1) slot t =
      x.captures a d slots position := by
  unfold held Arrival.captures
  cases htr : d.traced? with
  | none =>
    obtain ⟨-, b, rfl, hbound⟩ := h.tracked htr
    have hbound' : a.boundaries.getD b .empty = x.boundaries := by
      rw [hb.boundaries, Array.getD_eq_getD_getElem?]
      exact congrArg (Option.getD · _) hbound
    simp only [Dfa.slot, moveSlots, Array.getD_eq_getD_getElem?, List.getElem?_toArray,
      List.getElem?_map, hslot htr, List.getElem?_append_right (Nat.le_refl _), Nat.sub_self,
      Option.toList_some, List.singleton_append, List.getElem?_cons_zero, Option.map_some,
      Option.getD_some, applyBoundaries]
    rw [← Array.getD_eq_getD_getElem?, hbound', Arrival.boundaries]
    cases x.move with
    | none => simp [hb.groups, Boundaries.apply_empty]
    | some m => simp [held, htr, Dfa.slot, Array.getD_eq_getD_getElem?]
  | some groups =>
    simp only [(h.traced groups htr).2]
    cases hm : x.move with
    | none => rw [Option.elim_none, Option.elim_none, resolve_fresh, hg groups htr]
    | some m =>
      obtain ⟨i, k, hi, ht⟩ := hknown m hm
      rw [Option.elim_some, Option.elim_some, held, htr]
      exact resolve_advance position (hshort groups htr i k hi _ ht)

variable (slots position) in
/-- The threads of a step hold the captures of the arrivals that they realize. -/
theorem Build.Realized.viewed (hb : Built p d a) (hshort : ShortDistances d)
    (hg : ∀ groups, d.traced? = some groups → groups = n.groupCount) {as : List Arrival}
    {ts : List Thread} {us : List SlotUpdate} (h : Realized d as ts us)
    (hknown : ∀ x ∈ as, ∀ m, x.move = some m → InKey d m.thread) (later : List SlotUpdate) :
    Viewed a d (a.moveSlots (us.reverse ++ later) slots position) (position + 1) 0 ts.reverse
        (as.reverse.map fun x => (x.state, x.captures a d slots position)) ∧
      (d.traced? = none → us.length = ts.length) := by
  induction h generalizing later with
  | nil => exact ⟨.nil, fun _ => rfl⟩
  | @cons x t u as ts us hx hrest ih =>
    obtain ⟨ih1, ih2⟩ := ih (fun y hy => hknown y (by simp [hy])) (u.toList ++ later)
    have hu : u.toList.reverse = u.toList := by cases u <;> rfl
    have hlist : (u.toList ++ us).reverse ++ later = us.reverse ++ (u.toList ++ later) := by
      rw [List.reverse_append, hu, List.append_assoc]
    rw [hlist, List.reverse_cons, List.reverse_cons, List.map_append]
    refine ⟨ih1.append ?_, fun hn => ?_⟩
    · rw [List.map_singleton, ← hx.held_eq hb hshort hg (hknown x (by simp)) fun htr =>
        show 0 + ts.reverse.length = us.reverse.length by
          rw [Nat.zero_add, List.length_reverse, List.length_reverse, ih2 htr]]
      exact .cons hx.state .nil
    · obtain ⟨-, b, rfl, -⟩ := hx.tracked hn
      simp [ih2 hn]

end Arrivals

/-! ## Trying threads -/

/-- Trying a state with captures, in front of `rest` after `before`. -/
def Gets (n : Nfa) (before rest : List Char) (v : Nfa.State × Captures) (r : Option Captures) :
    Prop :=
  ∃ r', n.Finds rest (n.lookBehinds.after before) v.1 r' ∧ r = r'.map (replay · before.length v.2)

/-- Trying a move, where `tries` says what trying a transition gives. -/
def MoveGets (a : Dfa) (d : Discovered n) (slots : Slots) (position : Nat)
    (tries : Nfa.Transition → Option (List Boundaries) → Prop) (m : Move) (r : Option Captures) :
    Prop :=
  ∃ r', tries m.transition r' ∧
    r = r'.map (replay · position (held a d slots position m.slot m.thread))

section Threads

variable {p : Plan} {a : Dfa} {d : Discovered n} {slots : Slots} {slot : Nat}
  {before rest : List Char} {threads : List Thread} {moves : List Move}
  {vs : List (Nfa.State × Captures)} {c : Char} {r : Option Captures}

/-- Trying the moves of threads is trying the threads. -/
theorem gets_of_moves (tries : Nfa.Transition → Option (List Boundaries) → Prop)
    (htries : ∀ s trs r, n.transitions s = .ok trs → FirstOf tries trs r →
      n.Finds rest (n.lookBehinds.after before) s r)
    (hm : MovesOf d slot threads moves) (hv : Viewed a d slots before.length slot threads vs)
    (h : FirstOf (MoveGets a d slots before.length tries) moves r) :
    FirstOf (Gets n before rest) vs r := by
  induction hm generalizing vs r with
  | nil =>
    cases hv
    cases h
    exact .nil
  | @cons slot t s trs ts moves hs htrs _ ih =>
    obtain _ | ⟨hs', hv⟩ := hv
    cases hs.symm.trans hs'
    have thread : ∀ r, FirstOf (MoveGets a d slots before.length tries)
        (trs.map fun transition => { slot, thread := t, transition }) r →
        Gets n before rest (s, held a d slots before.length slot t) r := by
      intro r h
      obtain ⟨r', hr', hr⟩ := FirstOf.map_result_iff (A := tries)
        (f := (replay · before.length (held a d slots before.length slot t))) |>.mp
          (FirstOf.map_iff.mp h)
      exact ⟨r', htries _ _ _ htrs hr', hr⟩
    rcases h.append_inv with ⟨h1, h2⟩ | ⟨b, rfl, h1⟩
    · exact .skip (thread _ h1) (ih hv h2)
    · exact .found (thread _ h1)

/-- An arrival in a state where there is one before does not change what is found. -/
theorem FirstOf.of_join {A : Arrival → Option Captures → Prop} {as bs : List Arrival}
    (hA : ∀ x y, x.state = y.state → A x none → A y none)
    (h : FirstOf A (bs.foldl Arrival.join as).reverse r) : FirstOf A (as.reverse ++ bs) r := by
  induction bs generalizing as with
  | nil => simpa using h
  | cons b bs ih =>
    have h := ih h
    unfold Arrival.join at h
    split at h
    · rename_i hmeet
      obtain ⟨x, hx, hxb⟩ := List.any_eq_true.mp hmeet
      rcases h.append_inv with ⟨h1, h2⟩ | ⟨b, rfl, h1⟩
      · have hnone := FirstOf.none_iff.mp h1 x (List.mem_reverse.mpr hx)
        exact h1.append_none (.skip (hA x b (of_decide_eq_true hxb) hnone) h2)
      · exact h1.append_some
    · rwa [List.reverse_cons, List.append_assoc] at h

/-- Trying an arrival, which stands after the character `c`. -/
def ArrivalGets (a : Dfa) (d : Discovered n) (slots : Slots) (before : List Char) (c : Char)
    (rest : List Char) (x : Arrival) : Option Captures → Prop :=
  Gets n (before ++ [c]) rest (x.state, x.captures a d slots before.length)

/-- Trying the moves up to the first that matches is trying what they arrive at. -/
theorem moves_of_arrivals {before : List Char}
    (hallow : ∀ m ∈ moves, m.transition.cls.contains c.toNat = true)
    (h : FirstOf (ArrivalGets a d slots before c rest)
      (arrivals (n.contextOf false (n.lookBehinds.after (before ++ [c]))) moves) r) :
    FirstOf (MoveGets a d slots before.length (Nfa.Transition.Tries n
        (n.Finds rest (n.lookBehinds.after (before ++ [c]))) (n.lookBehinds.after before) c)) moves
      (r.or ((firstFinal moves).map fun m => m.transition.boundaries.apply
        (held a d slots before.length m.slot m.thread) before.length)) := by
  induction moves generalizing r with
  | nil =>
    cases h
    exact .nil
  | cons m moves ih =>
    have ih := fun {r} => @ih r fun m hm => hallow m (by simp [hm])
    unfold arrivals at h
    unfold firstFinal
    split at h
    · rename_i hfinal
      cases h
      rw [List.find?_cons_of_pos (by simp [hfinal])]
      refine .found ⟨some [m.transition.boundaries], ?_, rfl⟩
      simp [Nfa.Transition.Tries, hallow m, hfinal]
    · rename_i main lookAheads hnext
      rw [List.find?_cons_of_neg (by simp [hnext])]
      have step : ∀ r, ArrivalGets a d slots before c rest
          ⟨{ main, lookAheads, context :=
            n.contextOf false (n.lookBehinds.after (before ++ [c])) }, some m⟩ r →
          MoveGets a d slots before.length (Nfa.Transition.Tries n
            (n.Finds rest (n.lookBehinds.after (before ++ [c]))) (n.lookBehinds.after before) c)
            m r := by
        rintro r ⟨r', hr', rfl⟩
        refine ⟨r'.map (m.transition.boundaries :: ·), ?_, ?_⟩
        · simp only [Nfa.Transition.Tries, hallow m (by simp), hnext, ite_true]
          exact ⟨r', by simpa using hr', rfl⟩
        · simp only [Option.map_map]
          congr 1
          funext bs
          simp [replay, Arrival.captures]
      rcases h with _ | h | ⟨h, hrest⟩
      · exact .found (step _ h)
      · exact .skip (step _ h) (ih hrest)

end Threads

/-! ## Searching -/

/-- Beginning a match after each of the characters to come. -/
def laterStarts (n : Nfa) : List Char → List Char → List (Option Captures → Prop)
  | _, [] => []
  | before, c :: rest =>
    Gets n (before ++ [c]) rest (n.initial (n.contextAfter (before ++ [c])), .unset n.groupCount) ::
      laterStarts n (before ++ [c]) rest

section Search

variable {p : Plan} {a : Dfa} {d : Discovered n} {slots : Slots} {before rest : List Char}
  {threads : List Thread} {moves : List Move} {vs : List (Nfa.State × Captures)} {c : Char}
  {injecting : Bool} {id : StateId}

theorem contextAfter_append_singleton (n : Nfa) (before : List Char) (c : Char) :
    n.contextAfter (before ++ [c]) = n.contextOf false (n.lookBehinds.after (before ++ [c])) := by
  have h : (before ++ [c]).isEmpty = false := by simp
  rw [Nfa.contextAfter, h, Bool.false_and]

/-- The thread that begins is one more arrival, the last one. -/
theorem arrived_eq (tracker : BitSet) (c : Nat) :
    arrived n moves injecting tracker c =
      (arrivals (n.contextOf false (n.lookBehinds.advance tracker c)) (allowing moves c) ++
        if stillInjecting moves injecting c then
          [(⟨n.initial (n.contextOf false (n.lookBehinds.advance tracker c)), none⟩ : Arrival)]
        else []).foldl Arrival.join [] := by
  unfold arrived
  cases stillInjecting moves injecting c <;> simp

/-- The best captures after a move has matched, or none has. -/
def bestAfter (a : Dfa) (d : Discovered n) (slots : Slots) (position : Nat) (moves : List Move)
    (c : Nat) : Option Captures :=
  (firstFinal (allowing moves c)).map fun m =>
    m.transition.boundaries.apply (held a d slots position m.slot m.thread) position

/-- Trying what the moves on a character arrive at, and later starts, is trying the threads and
later starts. -/
theorem gets_of_arrivals (hm : MovesOf d 0 threads moves)
    (hv : Viewed a d slots before.length 0 threads vs) {r : Option Captures}
    (h : FirstOf (fun A => A)
      ((arrivals (n.contextOf false (n.lookBehinds.after (before ++ [c])))
          (allowing moves c.toNat)).map (ArrivalGets a d slots before c rest) ++
        if stillInjecting moves injecting c.toNat then laterStarts n before (c :: rest) else []) r) :
    FirstOf (fun A => A) (vs.map (Gets n before (c :: rest)) ++
      if injecting then laterStarts n before (c :: rest) else [])
      (r.or (bestAfter a d slots before.length moves c.toNat)) := by
  have hallow : ∀ m ∈ allowing moves c.toNat, m.transition.cls.contains c.toNat = true :=
    fun m hm => (List.mem_filter.mp hm).2
  have threads : ∀ r, FirstOf (ArrivalGets a d slots before c rest)
      (arrivals (n.contextOf false (n.lookBehinds.after (before ++ [c])))
        (allowing moves c.toNat)) r →
      FirstOf (fun A => A) (vs.map (Gets n before (c :: rest)))
        (r.or (bestAfter a d slots before.length moves c.toNat)) := by
    intro r h
    refine FirstOf.map_apply_iff.mpr (gets_of_moves (Nfa.Transition.Tries n
      (n.Finds rest (n.lookBehinds.after (before ++ [c]))) (n.lookBehinds.after before) c)
      (fun s trs r htrs h => ⟨trs, htrs, by simpa using h⟩) hm hv ?_)
    refine (FirstOf.filter_iff fun m _ hc r => ?_).mp (moves_of_arrivals hallow h)
    simp [MoveGets, Nfa.Transition.Tries, hc]
  rcases h.append_inv with ⟨h1, h2⟩ | ⟨b, rfl, h1⟩
  · have h1 := threads none (FirstOf.map_apply_iff.mp h1)
    rw [Option.none_or] at h1
    unfold bestAfter at h1 ⊢
    unfold stillInjecting at h2
    cases hf : firstFinal (allowing moves c.toNat) with
    | none =>
      rw [hf] at h1 h2
      rw [Option.isNone_none, Bool.and_true] at h2
      rw [Option.map_none, Option.or_none]
      exact h1.append_none h2
    | some m =>
      rw [hf] at h1 h2
      rw [Option.isNone_some, Bool.and_false] at h2
      cases h2
      exact h1.append_some
  · exact (threads (some b) (FirstOf.map_apply_iff.mp h1)).append_some

/-- At the end of the input the first move that may end there is found. -/
theorem gets_at_end (hm : MovesOf d 0 threads moves)
    (hv : Viewed a d slots before.length 0 threads vs) :
    FirstOf (Gets n before []) vs ((moves.find? (·.transition.acceptsEnd)).map fun m =>
      m.transition.boundaries.apply (held a d slots before.length m.slot m.thread)
        before.length) := by
  refine gets_of_moves (fun t r => r = t.atEnd) (fun s trs r htrs h => ⟨trs, htrs, h⟩)
    hm hv ?_
  clear hm
  induction moves with
  | nil => exact .nil
  | cons m moves ih =>
    cases hm : m.transition.acceptsEnd with
    | true =>
      rw [List.find?_cons_of_pos (by simp [hm])]
      exact .found ⟨_, rfl, by simp [Nfa.Transition.atEnd, hm, replay]⟩
    | false =>
      rw [List.find?_cons_of_neg (by simp [hm])]
      exact .skip ⟨_, rfl, by simp [Nfa.Transition.atEnd, hm]⟩ ih

/-- The accept of a transition leaves the best captures so far. -/
theorem Build.Leads.bestAfter_eq (hb : Built p d a) {c : Nat} {tracker : BitSet}
    {o : StateId × List SlotUpdate × Option Accept}
    (h : Leads p d moves injecting tracker c o) (slots : Slots) (position : Nat)
    (best : Option Captures) :
    (match o.2.2 with
      | some x => some (a.resolve x slots position)
      | none => best) = (bestAfter a d slots position moves c).or best := by
  have hacc := h.accept
  unfold bestAfter
  cases hf : firstFinal (allowing moves c) with
  | none =>
    simp only [hf] at hacc
    rw [hacc]
    rfl
  | some m =>
    simp only [hf] at hacc
    obtain ⟨x, hx, hr⟩ := hacc
    rw [hx]
    simp [held_of_reports hb hr]

/-- At the end of the input a search gives what the first move that may end there gives. -/
theorem Build.Searches.scan_nil (hb : Built p d a) {tracker : BitSet}
    (hs : Searches p d threads injecting tracker moves (a.state id)) (slots : Slots)
    (position : Nat) (best : Option Captures) :
    a.scan id slots position best [] =
      ((moves.find? (·.transition.acceptsEnd)).map fun m => m.transition.boundaries.apply
        (held a d slots position m.slot m.thread) position).or best := by
  have hacc := hs.endAccept
  unfold scan
  cases hf : moves.find? (·.transition.acceptsEnd) with
  | none =>
    simp only [hf] at hacc
    simp [hacc]
  | some m =>
    simp only [hf] at hacc
    obtain ⟨x, hx, hr⟩ := hacc
    simp [hx, held_of_reports hb hr]

/-- On a character a search goes on with what the moves lead to, as long as that is not dead. -/
theorem Build.Searches.scan_cons (hb : Built p d a) {tracker : BitSet}
    (hs : Searches p d threads injecting tracker moves (a.state id)) (slots : Slots)
    (position : Nat) (best : Option Captures) (c : Char) (rest : List Char) :
    ∃ o, Leads p d moves injecting tracker c.toNat o ∧
      a.scan id slots position best (c :: rest) =
        if o.1 = dead then (bestAfter a d slots position moves c.toNat).or best
        else a.scan o.1 (a.moveSlots o.2.1 slots position) (position + 1)
          ((bestAfter a d slots position moves c.toNat).or best) rest := by
  obtain ⟨o, hlead, htrans⟩ := hs.transitions c.toNat (toNat_le_maxCodePoint c)
  refine ⟨o, hlead, ?_⟩
  rw [← hlead.bestAfter_eq hb slots position best, scan]
  cases ht : (a.state id).transition? c.toNat with
  | none =>
    rw [ht, Option.map_none] at htrans
    split at htrans
    · rename_i ho
      simp only [ho.1, ho.2, ite_true]
    · cases htrans
  | some t =>
    rw [ht, Option.map_some] at htrans
    split at htrans
    · cases htrans
    · cases htrans
      rfl

/-- A match that may still begin is among the threads. -/
theorem stillInjecting_of_arrived_eq_nil {tracker : BitSet} {c : Nat}
    (h : arrived n moves injecting tracker c = []) : stillInjecting moves injecting c = false := by
  cases hst : stillInjecting moves injecting c with
  | false => rfl
  | true =>
    simp only [arrived, hst, ite_true, Arrival.join] at h
    split at h
    · rename_i hmeet
      rw [h] at hmeet
      cases hmeet
    · cases h

/-- Trying one arrival for each state is trying all of them, with the match that begins. -/
theorem gets_of_arrived {r : Option Captures}
    (h : FirstOf (ArrivalGets a d slots before c rest)
      (arrived n moves injecting (n.lookBehinds.after before) c.toNat).reverse r) :
    FirstOf (fun A => A)
      ((arrivals (n.contextOf false (n.lookBehinds.after (before ++ [c])))
          (allowing moves c.toNat)).map (ArrivalGets a d slots before c rest) ++
        if stillInjecting moves injecting c.toNat then
          [Gets n (before ++ [c]) rest
            (n.initial (n.contextAfter (before ++ [c])), .unset n.groupCount)] else []) r := by
  rw [arrived_eq, ← LookBehindTable.after_append_singleton] at h
  have h := FirstOf.of_join (fun x y hxy hx => by
    obtain ⟨r', hr', hnone⟩ := hx
    cases r' with
    | none => exact ⟨none, hxy ▸ hr', rfl⟩
    | some b => cases hnone) h
  rw [List.reverse_nil, List.nil_append, ← FirstOf.map_apply_iff, List.map_append] at h
  rw [contextAfter_append_singleton]
  cases hst : stillInjecting moves injecting c.toNat with
  | true =>
    simp only [hst, ite_true, List.map_singleton] at h ⊢
    exact h
  | false =>
    simp only [hst, Bool.false_eq_true, ite_false, List.map_nil] at h ⊢
    exact h

/-- A match that begins at the next position is the first of the later starts. -/
theorem gets_of_arrived_append {r : Option Captures}
    (h : FirstOf (fun A => A)
      ((arrived n moves injecting (n.lookBehinds.after before) c.toNat).reverse.map
          (ArrivalGets a d slots before c rest) ++
        if stillInjecting moves injecting c.toNat then laterStarts n (before ++ [c]) rest else []) r) :
    FirstOf (fun A => A)
      ((arrivals (n.contextOf false (n.lookBehinds.after (before ++ [c])))
          (allowing moves c.toNat)).map (ArrivalGets a d slots before c rest) ++
        if stillInjecting moves injecting c.toNat then laterStarts n before (c :: rest) else []) r := by
  have hcons : (if stillInjecting moves injecting c.toNat then
      laterStarts n before (c :: rest) else []) =
      (if stillInjecting moves injecting c.toNat then
        [Gets n (before ++ [c]) rest
          (n.initial (n.contextAfter (before ++ [c])), .unset n.groupCount)] else []) ++
        if stillInjecting moves injecting c.toNat then
          laterStarts n (before ++ [c]) rest else [] := by
    cases stillInjecting moves injecting c.toNat <;> rfl
  rw [hcons, ← List.append_assoc]
  rcases h.append_inv with ⟨h1, h2⟩ | ⟨b, rfl, h1⟩
  · exact (gets_of_arrived (FirstOf.map_apply_iff.mp h1)).append_none h2
  · exact (gets_of_arrived (FirstOf.map_apply_iff.mp h1)).append_some

/-- The threads after a character hold the captures of the arrivals. -/
theorem Build.Searches.viewed_arrived (hb : Built p d a) (hshort : ShortDistances d)
    (hg : ∀ groups, d.traced? = some groups → groups = n.groupCount) {tracker : BitSet}
    (hk : d.keys.get? id = some (.search threads injecting tracker))
    (hs : Searches p d threads injecting tracker moves (a.state id)) {ts : List Thread}
    {us : List SlotUpdate} (hreal : Realized d (arrived n moves injecting tracker c.toNat) ts us)
    (slots : Slots) (position : Nat) :
    Viewed a d (a.moveSlots us.reverse slots position) (position + 1) 0 ts.reverse
      ((arrived n moves injecting tracker c.toNat).reverse.map fun x =>
        (x.state, x.captures a d slots position)) := by
  have hknown : ∀ x ∈ arrived n moves injecting tracker c.toNat, ∀ m, x.move = some m →
      InKey d m.thread := by
    intro x hx m hm
    rcases mem_arrived hx with hnone | ⟨m', hm', hx⟩
    · cases hnone.symm.trans hm
    · cases hx.symm.trans hm
      exact ⟨_, _, hk, hs.ofThreads.mem hm'⟩
  have hviewed := (hreal.viewed slots position hb hshort hg hknown []).1
  rwa [List.append_nil] at hviewed

/-- A search gives what trying the threads and then later starts gives, or the best so far. -/
theorem scan_gets (hb : Built p d a) (hshort : ShortDistances d)
    (hg : ∀ groups, d.traced? = some groups → groups = n.groupCount)
    (hk : d.keys.get? id = some (.search threads injecting (n.lookBehinds.after before)))
    (hv : Viewed a d slots before.length 0 threads vs) (best : Option Captures) (rest : List Char) :
    ∃ r, FirstOf (fun A => A) (vs.map (Gets n before rest) ++
        if injecting then laterStarts n before rest else []) r ∧
      a.scan id slots before.length best rest = r.or best := by
  induction rest generalizing before id slots threads injecting vs best with
  | nil =>
    obtain ⟨moves, hs⟩ := hb.expands id _ hk
    refine ⟨_, ?_, hs.scan_nil hb slots before.length best⟩
    rw [show (if injecting then laterStarts n before [] else []) = [] by
      cases injecting <;> rfl, List.append_nil]
    exact FirstOf.map_apply_iff.mpr (gets_at_end hs.ofThreads hv)
  | cons c rest ih =>
    obtain ⟨moves, hs⟩ := hb.expands id _ hk
    obtain ⟨o, hlead, hscan⟩ := hs.scan_cons hb slots before.length best c rest
    -- It is enough to go on from what the moves arrive at.
    suffices hsuff : ∃ r, FirstOf (fun A => A)
        ((arrivals (n.contextOf false (n.lookBehinds.after (before ++ [c])))
            (allowing moves c.toNat)).map (ArrivalGets a d slots before c rest) ++
          if stillInjecting moves injecting c.toNat then laterStarts n before (c :: rest) else [])
          r ∧
        a.scan id slots before.length best (c :: rest) =
          r.or ((bestAfter a d slots before.length moves c.toNat).or best) by
      obtain ⟨r, hr, hscan⟩ := hsuff
      refine ⟨_, gets_of_arrivals hs.ofThreads hv hr, ?_⟩
      rw [hscan, Option.or_assoc]
    rw [hscan]
    obtain ⟨ts, us, hreal, hupdates, ⟨rfl, hdead⟩ | ⟨hne, hkey⟩⟩ := hlead.target
    · -- No thread is left.
      have harrived : arrived n moves injecting (n.lookBehinds.after before) c.toNat = [] :=
        List.length_eq_zero_iff.mp hreal.length_eq
      refine ⟨none, gets_of_arrived_append ?_, by rw [if_pos hdead, Option.none_or]⟩
      rw [harrived, stillInjecting_of_arrived_eq_nil harrived]
      exact .nil
    · have hne' : o.1 ≠ dead := by
        intro h
        rw [h, hb.valid.dead] at hkey
        cases hkey
      have hviewed := hs.viewed_arrived hb hshort hg hk hreal slots before.length
      rw [← hupdates] at hviewed
      rw [← LookBehindTable.after_append_singleton] at hkey
      obtain ⟨r, hr, hscan⟩ := ih hkey
        (by rw [List.length_append, List.length_singleton]; exact hviewed)
        ((bestAfter a d slots before.length moves c.toNat).or best)
      rw [List.length_append, List.length_singleton] at hscan
      rw [List.map_map] at hr
      exact ⟨r, gets_of_arrived_append hr, by rw [if_neg hne', hscan]⟩

/-- Reading ahead keeps the tracker of what has been read. -/
theorem lead_of_foldl_read (hb : Built p d a) {read : StateId → Char → StateId}
    (hread : ∀ id c, read id c = ((a.state id).transition? c.toNat).elim id Transition.target)
    (w : List Char) (hk : d.keys.get? id = some (.lead (n.lookBehinds.after before))) :
    d.keys.get? (w.foldl read id) = some (.lead (n.lookBehinds.after (before ++ w))) := by
  induction w generalizing id before with
  | nil => simpa using hk
  | cons c w ih =>
    have hstep : d.keys.get? (read id c) = some (.lead (n.lookBehinds.after (before ++ [c]))) := by
      have hx : ReadsAhead p d (n.lookBehinds.after before) (a.state id) := hb.expands id _ hk
      rw [hread]
      cases he : n.lookBehinds.isEmpty with
      | true =>
        have htr := hx.transitions
        rw [if_pos he] at htr
        have hnone : (a.state id).transition? c.toNat = none := by
          rw [State.transition?, htr]
          rfl
        rw [hnone, Option.elim_none, hk, LookBehindTable.after_of_isEmpty he,
          LookBehindTable.after_of_isEmpty he]
      | false =>
        have htr := hx.transitions
        rw [if_neg (by simp [he])] at htr
        obtain ⟨t, ht, hk'⟩ := htr c.toNat (toNat_le_maxCodePoint c)
        rw [ht, Option.elim_some, hk', LookBehindTable.after_append_singleton]
    have := ih hstep
    rwa [List.append_assoc, List.singleton_append] at this

/-- A search starts with the thread that begins there, in the context of all that stands before. -/
theorem rootKey_startState (hb : Built p d a) (hl : n.lookBehinds.LaidOut) (before : List Char) :
    RootKey p d (before.isEmpty && n.usesStart) (n.lookBehinds.after before)
      (a.startState before) := by
  unfold startState
  cases hbefore : before.isEmpty with
  | true =>
    rw [List.isEmpty_iff] at hbefore
    subst hbefore
    exact hb.rootStart
  | false =>
    simp only [Bool.false_eq_true, ite_false, Bool.false_and]
    have hmid : d.keys.get? a.rootMid = some (.lead (n.lookBehinds.after [])) := hb.rootMid
    have hkey := lead_of_foldl_read hb (fun _ _ => rfl)
      (before.drop (before.length - a.leadLength)) hmid
    rw [List.nil_append, hb.leadLength, LookBehindTable.after_drop hl] at hkey
    rw [hb.leadLength]
    obtain ⟨e, he, hr⟩ := (show ReadsAhead p d _ (a.state _) from hb.expands _ _ hkey).entry
    rw [he]
    exact hr

theorem laterStarts_eq (n : Nfa) (before rest : List Char) :
    laterStarts n before rest =
      (List.range' (before.length + 1) rest.length).map (n.StartFinds (before ++ rest)) := by
  induction rest generalizing before with
  | nil => rfl
  | cons c rest ih =>
    rw [laterStarts, ih, List.length_cons, List.range'_succ, List.map_cons, List.append_assoc,
      List.singleton_append, List.length_append, List.length_singleton]
    congr 1
    have htake : (before ++ c :: rest).take (before.length + 1) = before ++ [c] := by
      rw [List.take_length_add_append]
      rfl
    have hdrop : (before ++ c :: rest).drop (before.length + 1) = rest := by
      rw [List.drop_length_add_append]
      rfl
    funext r
    unfold Gets Nfa.StartFinds
    rw [htake, hdrop, List.length_append, List.length_singleton]

/-- A search gives what trying the starts in their order gives. -/
theorem search_finds (hb : Built p d a) (hl : n.lookBehinds.LaidOut) (hshort : ShortDistances d)
    (hg : ∀ groups, d.traced? = some groups → groups = n.groupCount) {input : List Char}
    {start : Nat} (hstart : start ≤ input.length) :
    FirstOf (n.StartFinds input) (starts p.sticky input.length start) (a.search input start) := by
  obtain ⟨t, hk, hs, hc⟩ := rootKey_startState hb hl (input.take start)
  have hlen : (input.take start).length = start := by
    rw [List.length_take]
    omega
  have hheld : held a d #[.unset a.groups] start 0 t = .unset n.groupCount := by
    unfold held
    cases htr : d.traced? with
    | none => simp [slot, hb.groups]
    | some groups =>
      simp only [hc, htr, Option.elim_some]
      rw [resolve_fresh, hg groups htr]
  have hv : Viewed a d #[.unset a.groups] (input.take start).length 0 [t]
      [(n.initial (n.contextAfter (input.take start)), .unset n.groupCount)] := by
    rw [hlen, ← hheld]
    exact .cons hs .nil
  obtain ⟨r, hr, hscan⟩ := scan_gets hb hshort hg hk hv none (input.drop start)
  rw [hlen, Option.or_none] at hscan
  rw [search, if_pos hstart, hscan, ← FirstOf.map_apply_iff]
  have hfirst : Gets n (input.take start) (input.drop start)
      (n.initial (n.contextAfter (input.take start)), .unset n.groupCount) =
        n.StartFinds input start := by
    funext r
    unfold Gets Nfa.StartFinds
    rw [hlen]
  rw [List.map_singleton, hfirst, laterStarts_eq, hlen, List.length_drop,
    List.take_append_drop] at hr
  unfold starts
  cases hst : p.sticky with
  | true =>
    simp only [hst, Bool.not_true, Bool.false_eq_true, ite_false] at hr
    exact hr
  | false =>
    simp only [hst, Bool.not_false, ite_true] at hr
    rw [show input.length + 1 - start = input.length - start + 1 by omega, List.range'_succ]
    exact hr

end Search

end PatternAutomata.Dfa
