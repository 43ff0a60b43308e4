import PatternAutomata.Proofs.Dfa.Splitting

/-!
# All matches that a search comes to

A search works out the captures of every match that it comes to, also of those that a preferred one
replaces later. `searchAccepts` lists them, each with the position at which it ends. If all of them
name results of the trace finder, the captures of the last one are what the search finds. Splitting
loops changes nothing in the list.
-/

namespace PatternAutomata.Dfa

section Accepts

variable (d : Dfa)

/-- The matches that a scan comes to, each with the position at which it ends. -/
def scanAccepts (id : StateId) (position : Nat) : List Char → List (Accept × Nat)
  | [] => (d.state id).endAccept.toList.map (·, position)
  | c :: rest =>
    match (d.state id).transition? c.toNat with
    | none => []
    | some t =>
      t.accept.toList.map (·, position) ++
        if t.target = dead then [] else scanAccepts t.target (position + 1) rest

/-- The matches that a search comes to, each with the position at which it ends. -/
def searchAccepts (input : List Char) (start : Nat) : List (Accept × Nat) :=
  if start ≤ input.length then
    d.scanAccepts (d.startState (input.take start)) start (input.drop start)
  else []

end Accepts

variable {d : Dfa} {id : StateId} {position start : Nat} {rest input : List Char}

/-- The best match after some that name results. -/
def lastResult (d : Dfa) (accepts : List (Accept × Nat)) (best : Option Captures) :
    Option Captures :=
  (accepts.getLast?.map fun x => d.resolve x.1 #[] x.2).or best

theorem lastResult_append (as bs : List (Accept × Nat)) (best : Option Captures) :
    d.lastResult (as ++ bs) best = d.lastResult bs (d.lastResult as best) := by
  unfold lastResult
  rw [List.getLast?_append, Option.map_or, Option.or_assoc]

/-- A result is resolved without looking at the slots. -/
theorem lastResult_accept {a : Option Accept} (h : ∀ x, a = some x → ∃ i, x = .result i)
    (slots : Slots) (best : Option Captures) :
    d.lastResult (a.toList.map (·, position)) best =
      a.elim best fun x => some (d.resolve x slots position) := by
  cases a with
  | none => rfl
  | some x =>
    obtain ⟨i, rfl⟩ := h x rfl
    rfl

/-- What a scan finds is the last of the matches that it comes to. -/
theorem scan_eq_lastResult (h : ∀ x ∈ d.scanAccepts id position rest, ∃ i, x.1 = .result i)
    (slots : Slots) (best : Option Captures) :
    d.scan id slots position best rest = d.lastResult (d.scanAccepts id position rest) best := by
  induction rest generalizing id slots position best with
  | nil =>
    unfold scan
    unfold scanAccepts at h ⊢
    rw [lastResult_accept (fun x hx => h (x, position) (by simp [hx])) slots]
    cases (d.state id).endAccept <;> rfl
  | cons c rest ih =>
    unfold scan
    unfold scanAccepts at h ⊢
    cases ht : (d.state id).transition? c.toNat with
    | none => rfl
    | some t =>
      simp only [ht] at h ⊢
      rw [lastResult_append,
        lastResult_accept (fun x hx => h (x, position) (by simp [hx])) slots]
      split
      · cases t.accept <;> rfl
      · rename_i hdead
        rw [ih fun x hx => h x (List.mem_append_right _ (by rwa [if_neg hdead]))]
        cases t.accept <;> rfl

theorem search_eq_lastResult (h : ∀ x ∈ d.searchAccepts input start, ∃ i, x.1 = .result i) :
    d.search input start = d.lastResult (d.searchAccepts input start) none := by
  unfold search
  unfold searchAccepts at h ⊢
  split
  · rename_i hstart
    rw [if_pos hstart] at h
    exact scan_eq_lastResult h _ _
  · rfl

/-! ## Splitting -/

section Covers

variable {s : Splitting} {f : StateId → StateId}

theorem scanAccepts_of_dead (h : d.state id = {}) : d.scanAccepts id position rest = [] := by
  cases rest with
  | nil => simp [scanAccepts, h]
  | cons c rest => simp [scanAccepts, h, State.transition?]

theorem Covers.scanAccepts (h : Covers d s f) (rest : List Char) (i : StateId) (position : Nat) :
    (d.withStates s).scanAccepts i position rest = d.scanAccepts (f i) position rest := by
  induction rest generalizing i position with
  | nil =>
    simp only [Dfa.scanAccepts, h.state]
    rfl
  | cons c rest ih =>
    simp only [Dfa.scanAccepts, h.state, State.transition?_mapSuccessors]
    cases ht : ((d.withStates s).state i).transition? c.toNat with
    | none => rfl
    | some t =>
      simp only [Option.map_some]
      refine congrArg _ ?_
      by_cases hdead : t.target = Dfa.dead
      · rw [if_pos hdead, if_pos (by rw [hdead, h.dead])]
      · rw [if_neg hdead]
        by_cases hdead' : f t.target = Dfa.dead
        · rw [if_pos hdead', scanAccepts_of_dead (h.state_eq_of_dead hdead')]
        · rw [if_neg hdead', ih]

theorem Covers.searchAccepts (h : Covers d s f) (input : List Char) (start : Nat) :
    (d.withStates s).searchAccepts input start = d.searchAccepts input start := by
  unfold Dfa.searchAccepts
  rw [h.scanAccepts, h.startState]

end Covers

/-- When its loops are split, an automaton keeps its results, and a search comes to the same
matches. -/
theorem accepts_splitLoops {d' : Dfa} {maxStates : Nat} (h : Closed d)
    (hd : d.splitLoops maxStates = .ok d') :
    d'.results = d.results ∧
      ∀ input start, d'.searchAccepts input start = d.searchAccepts input start := by
  obtain ⟨s, f, hf, rfl⟩ := exists_covers h hd
  exact ⟨rfl, hf.searchAccepts⟩

end PatternAutomata.Dfa
