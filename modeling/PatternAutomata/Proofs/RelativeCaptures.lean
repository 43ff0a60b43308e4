import PatternAutomata.Proofs.Dfa.Scan
import PatternAutomata.Proofs.Dfa.ShortTraces

/-!
# Distances and positions stay in step

Along a path, distances name the positions that its records set, each applied where it was met: a
character makes every distance that is set longer by one, and moves the current position by one. The
finder numbers the arrays with which paths end. Two of them have the same number exactly when they are
equal, a number keeps its meaning whatever is numbered later, and a call that there is no room for
changes nothing.
-/

namespace PatternAutomata

/-! ## Paths -/

/-- The captures after the records, the first one applied at `position` and each of the others one
character after the one before. -/
def Captures.applyAll : List Boundaries → Nat → Captures → Captures
  | [], _, captures => captures
  | b :: bs, position, captures => applyAll bs (position + 1) (b.apply captures position)

namespace RelativeCaptures

/-- The captures after the records, each followed by one character. -/
def advanceAll (bs : List Boundaries) (captures : RelativeCaptures) : RelativeCaptures :=
  bs.foldl (fun captures b => captures.advance b) captures

variable {captures : RelativeCaptures} {k : Nat}

theorem AtMost.lt_maxDistance (h : captures.AtMost k) (hk : k < maxDistance) :
    ∀ j e : Nat, captures[j]? = some (some e) → e < maxDistance := fun _ e hj =>
  Nat.lt_of_le_of_lt (h e (Array.mem_of_getElem? hj)) hk

/-- As long as no distance comes to the largest one, the path sets what its records set where they are
met. -/
theorem AtMost.resolve_advanceAll (h : captures.AtMost k) (bs : List Boundaries)
    (hk : k + bs.length ≤ maxDistance) (position : Nat) :
    (captures.advanceAll bs).resolve (position + bs.length) =
      Captures.applyAll bs position (captures.resolve position) := by
  induction bs generalizing captures k position with
  | nil => rfl
  | cons b bs ih =>
    rw [List.length_cons] at hk ⊢
    have hshort := h.lt_maxDistance (by omega)
    calc ((captures.advance b).advanceAll bs).resolve (position + (bs.length + 1))
        = ((captures.advance b).advanceAll bs).resolve (position + 1 + bs.length) := by
          rw [Nat.add_right_comm, Nat.add_assoc]
      _ = Captures.applyAll bs (position + 1) ((captures.advance b).resolve (position + 1)) :=
          ih h.advance (by omega) (position + 1)
      _ = Captures.applyAll bs (position + 1) (b.apply (captures.resolve position) position) := by
          rw [Dfa.resolve_advance position hshort]

/-- Fewer characters than the largest number of 32 bits do not make a distance too long. -/
theorem resolve_record_advanceAll_fresh (groups : Nat) {bs : List Boundaries}
    (hlength : bs.length < 2 ^ 32 - 1) (b : Boundaries) (position : Nat) :
    (((fresh groups).advanceAll bs).record b).resolve (position + bs.length) =
      b.apply (Captures.applyAll bs position (.unset groups)) (position + bs.length) := by
  have hk : 0 + bs.length ≤ maxDistance := by
    have : maxDistance = 2 ^ 32 - 2 := rfl
    omega
  rw [Dfa.resolve_record, (atMost_fresh groups 0).resolve_advanceAll bs hk, Dfa.resolve_fresh]

end RelativeCaptures

/-! ## Calls of the finder -/

namespace TraceFinder

/-- Numbers the result of a path in place. -/
def store (captures : RelativeCaptures) (b : Boundaries) : ExceptT Bailout (StateM TraceFinder) Nat := do
  let final := captures.record b
  let t ← get
  match t.results.find? final with
  | some i => return i
  | none =>
    if t.maxResults ≤ t.size then throw (Stage.traceFinder.exceeded .traceResults)
    else
      let (results, i) := t.results.intern final
      set { t with results }
      return i

/-- A path to be numbered: its captures, and the record with which it ends. -/
structure Call where
  captures : RelativeCaptures
  last : Boundaries

/-- The array that is numbered. -/
def Call.final (c : Call) : RelativeCaptures := c.captures.record c.last

/-- The answer to a call, and the finder after it. -/
def call (t : TraceFinder) (c : Call) : Except Bailout Nat × TraceFinder :=
  (store c.captures c.last).run.run t

/-- The answers to calls one after the other, and the finder after them. -/
def serve (t : TraceFinder) : List Call → List (Except Bailout Nat) × TraceFinder
  | [] => ([], t)
  | c :: cs => ((t.call c).1 :: ((t.call c).2.serve cs).1, ((t.call c).2.serve cs).2)

variable {t : TraceFinder} {c : Call} {i : Nat} {r : RelativeCaptures}

/-- What is numbered in place is what `result` numbers, and a call that fails leaves the finder as it
was. -/
theorem call_eq (t : TraceFinder) (c : Call) : t.call c =
    match t.result c.captures c.last with
    | .ok (t', i) => (.ok i, t')
    | .error e => (.error e, t) := by
  have hcall : t.call c = (match t.results.find? c.final with
      | some i => (pure i : ExceptT Bailout (StateM TraceFinder) Nat)
      | none =>
        if t.maxResults ≤ t.size then throw (Stage.traceFinder.exceeded .traceResults)
        else do
          set { t with results := (t.results.intern c.final).1 }
          return (t.results.intern c.final).2).run.run t := rfl
  rw [hcall, result, ← Call.final]
  cases hfind : t.results.find? c.final with
  | some i => rfl
  | none =>
    by_cases hfull : t.maxResults ≤ t.size
    · simp only [if_pos hfull, if_neg (Nat.not_lt.mpr hfull)]
      rfl
    · simp only [if_neg hfull, if_pos (Nat.lt_of_not_le hfull)]
      rfl

/-- A call numbers its array, which is new only if there is room for it. If there is none, the call
fails and changes nothing. -/
theorem call_cases (t : TraceFinder) (c : Call) :
    (t.call c = (.ok (t.results.intern c.final).2, { t with results := (t.results.intern c.final).1 }) ∧
      (t.results.find? c.final = none → t.size < t.maxResults)) ∨
    t.call c = (.error (Stage.traceFinder.exceeded .traceResults), t) ∧
      t.results.find? c.final = none ∧ t.maxResults ≤ t.size := by
  rw [call_eq, result, ← Call.final]
  cases hfind : t.results.find? c.final with
  | some i =>
    refine .inl ⟨?_, nofun⟩
    rw [Interner.intern_of_find? hfind]
  | none =>
    by_cases hroom : t.size < t.maxResults
    · exact .inl ⟨by simp only [if_pos hroom], fun _ => hroom⟩
    · exact .inr ⟨by simp only [if_neg hroom], rfl, Nat.le_of_not_lt hroom⟩

theorem get?_call (c : Call) (h : t.results.get? i = some r) :
    (t.call c).2.results.get? i = some r := by
  rcases call_cases t c with ⟨hcall, -⟩ | ⟨hcall, -⟩
  · rw [hcall]
    exact Interner.get?_intern_of_some _ h
  · rwa [hcall]

theorem get?_of_call (h : (t.call c).1 = .ok i) : (t.call c).2.results.get? i = some c.final := by
  rcases call_cases t c with ⟨hcall, -⟩ | ⟨hcall, -⟩
  · rw [hcall] at h ⊢
    cases h
    exact Interner.get?_intern_self ..
  · rw [hcall] at h
    cases h

/-- The finder has the limits that it was made with, and keeps within them. -/
structure MadeFor (t : TraceFinder) (groups maxResults : Nat) : Prop where
  groups_eq : t.groups = groups
  maxResults_eq : t.maxResults = min maxResults maxCount
  size_le : t.size ≤ min maxResults maxCount

variable {groups maxResults : Nat}

theorem madeFor_new (groups maxResults : Nat) : (new groups maxResults).MadeFor groups maxResults :=
  ⟨rfl, rfl, Nat.zero_le _⟩

theorem MadeFor.call (h : t.MadeFor groups maxResults) (c : Call) :
    (t.call c).2.MadeFor groups maxResults := by
  rcases call_cases t c with ⟨hcall, hroom⟩ | ⟨hcall, -⟩
  · rw [hcall]
    refine ⟨h.groups_eq, h.maxResults_eq, ?_⟩
    cases hfind : t.results.find? c.final with
    | some i =>
      rw [Interner.intern_of_find? hfind]
      exact h.size_le
    | none =>
      have hlt := hroom hfind
      rw [h.maxResults_eq] at hlt
      exact Nat.le_trans (Interner.size_intern_le ..) hlt
  · rwa [hcall]

theorem MadeFor.serve (h : t.MadeFor groups maxResults) (calls : List Call) :
    (t.serve calls).2.MadeFor groups maxResults := by
  induction calls generalizing t with
  | nil => exact h
  | cons c calls ih => exact ih (h.call c)

/-- A number keeps its meaning. -/
theorem get?_serve (calls : List Call) (h : t.results.get? i = some r) :
    (t.serve calls).2.results.get? i = some r := by
  induction calls generalizing t with
  | nil => exact h
  | cons c calls ih => exact ih (get?_call c h)

/-- After all calls, each answer still names the array of its call. -/
theorem get?_of_answer {calls : List Call} {j : Nat} (hc : calls[j]? = some c)
    (hi : (t.serve calls).1[j]? = some (.ok i)) :
    (t.serve calls).2.results.get? i = some c.final := by
  induction calls generalizing t j with
  | nil => cases hc
  | cons first calls ih =>
    cases j with
    | zero =>
      cases hc
      exact get?_serve calls (get?_of_call (Option.some.inj hi))
    | succ j => exact ih hc hi

/-- Distances and positions stay in step, and numbers keep their meaning. After any calls, let a path be
numbered on which each of the records `bs` is followed by a character, and which ends with `b`. Then,
whatever is numbered afterwards, its number names an array that resolves to what the records set where
they are met. In any history two calls are given one number just when their arrays are equal, and what a
number names stays. A call succeeds, with a number of one byte that is not the largest, if its array is
known or if there is room for it; otherwise it changes nothing. -/
theorem distances_in_step (groups maxResults : Nat) (calls : List Call) :
    let answers := ((new groups maxResults).serve calls).1
    let t := ((new groups maxResults).serve calls).2
    (∀ (bs : List Boundaries) (b : Boundaries) (position i : Nat) (t' : TraceFinder),
      bs.length < 2 ^ 32 - 1 → t.result (t.fresh.advanceAll bs) b = .ok (t', i) → ∀ more, ∃ r,
        (t'.serve more).2.results.get? i = some r ∧ r.resolve (position + bs.length) =
          b.apply (Captures.applyAll bs position (.unset groups)) (position + bs.length)) ∧
    (∀ (j k i i' : Nat) (c c' : Call), calls[j]? = some c → answers[j]? = some (.ok i) →
      calls[k]? = some c' → answers[k]? = some (.ok i') → (i = i' ↔ c.final = c'.final)) ∧
    (∀ i r more, t.results.get? i = some r → (t.serve more).2.results.get? i = some r) ∧
    ∀ c, ((∃ i, (t.call c).1 = .ok i ∧ i < 2 ^ 8 - 1) ∧
        ((∃ i, t.results.get? i = some c.final) ∨ t.size < min maxResults (2 ^ 8 - 1))) ∨
      t.call c = (.error (Stage.traceFinder.exceeded .traceResults), t) ∧
        (∀ i, t.results.get? i ≠ some c.final) ∧ t.size = min maxResults (2 ^ 8 - 1) := by
  intro answers t
  have hmade : t.MadeFor groups maxResults := (madeFor_new groups maxResults).serve calls
  have hcount : maxCount = 2 ^ 8 - 1 := rfl
  refine ⟨fun bs b position i t' hlength hresult more => ?_, fun j k i i' c c' hc hi hc' hi' => ⟨?_, ?_⟩,
    fun i r more h => get?_serve more h, fun c => ?_⟩
  · have hcall := call_eq t ⟨t.fresh.advanceAll bs, b⟩
    rw [hresult] at hcall
    have hget := get?_of_call (congrArg Prod.fst hcall)
    rw [hcall, Call.final, fresh, hmade.groups_eq] at hget
    exact ⟨_, get?_serve more hget,
      RelativeCaptures.resolve_record_advanceAll_fresh groups hlength b position⟩
  · rintro rfl
    exact Option.some.inj ((get?_of_answer hc hi).symm.trans (get?_of_answer hc' hi'))
  · intro hfinal
    exact Interner.get?_inj (get?_of_answer hc hi) (hfinal ▸ get?_of_answer hc' hi')
  · rcases call_cases t c with ⟨hcall, hroom⟩ | ⟨hcall, hnew, hfull⟩
    · have hget := get?_of_call (congrArg Prod.fst hcall)
      have hlt := Nat.lt_of_lt_of_le (Interner.lt_size hget) (hmade.call c).size_le
      refine .inl ⟨⟨_, congrArg Prod.fst hcall, Nat.lt_of_lt_of_le hlt (Nat.min_le_right ..)⟩, ?_⟩
      cases hfind : t.results.find? c.final with
      | some i => exact .inl ⟨i, Interner.find?_eq_some_iff.mp hfind⟩
      | none => exact .inr (hmade.maxResults_eq ▸ hroom hfind)
    · refine .inr ⟨hcall, fun i hi => ?_, ?_⟩
      · cases hnew.symm.trans (Interner.find?_eq_some_iff.mpr hi)
      · exact Nat.le_antisymm hmade.size_le (hmade.maxResults_eq ▸ hfull)

/-- There is room for two arrays. The third call repeats the first one, and the fourth one fails. The path
over two characters ends with the array of the second call, and names the positions from 5 to 7. -/
theorem distances_in_step_full :
    let stop := Boundaries.empty.updateEnd 0
    let start := Boundaries.empty.updateStart 0
    let calls : List Call :=
      [⟨#[some 1, none], stop⟩, ⟨#[some 2, none], stop⟩, ⟨#[some 1, none], stop⟩,
        ⟨#[some 3, none], stop⟩]
    let answers := ((new 1 2).serve calls).1
    let t := ((new 1 2).serve calls).2
    answers.map Except.toOption = [some 0, some 1, some 0, none] ∧
      [start, Boundaries.empty].length < 2 ^ 32 - 1 ∧
      (∃ t', t.result (t.fresh.advanceAll [start, .empty]) stop = .ok (t', 1) ∧
        ∃ r, t'.results.get? 1 = some r ∧ r.resolve 7 = #[some 5, some 7]) ∧
      (calls[0]?.map Call.final = calls[2]?.map Call.final) ∧
      t.call ⟨#[some 3, none], stop⟩ = (.error (Stage.traceFinder.exceeded .traceResults), t) := by
  intro stop start calls answers t
  obtain ⟨hresolves, hsame, -, hcalls⟩ := distances_in_step 1 2 calls
  have hanswers : answers.map Except.toOption = [some 0, some 1, some 0, none] := by decide +kernel
  have hok : ∀ j i : Nat, (answers.map Except.toOption)[j]? = some (some i) →
      answers[j]? = some (.ok i) := by
    intro j i h
    obtain ⟨a, ha, hi⟩ := Option.map_eq_some_iff.mp ((List.getElem?_map ..).symm.trans h)
    rw [ha, toOption_eq_some_iff.mp hi]
  obtain ⟨⟨t', i⟩, ht'⟩ := exists_ok (x := t.result (t.fresh.advanceAll [start, .empty]) stop)
    (by decide +kernel)
  obtain rfl : i = 1 := of_toOption (P := fun x => x.2 = 1) (by decide +kernel) ht'
  obtain ⟨r, hr, hresolve⟩ := hresolves [start, .empty] stop 5 1 t' (by decide) ht' []
  refine ⟨hanswers, by decide, ⟨t', ht', r, hr, hresolve.trans (by decide)⟩, ?_, ?_⟩
  · have hfinal := (hsame 0 2 0 0 _ _ rfl (hok 0 0 (by rw [hanswers]; rfl)) rfl
      (hok 2 0 (by rw [hanswers]; rfl))).mp rfl
    exact congrArg some hfinal
  · rcases hcalls ⟨#[some 3, none], stop⟩ with ⟨⟨i, hi, -⟩, -⟩ | ⟨hcall, -⟩
    · have hfails : ((t.call ⟨#[some 3, none], stop⟩).1).isOk = false := by decide +kernel
      rw [show (t.call ⟨#[some 3, none], stop⟩).1 = .ok i from hi] at hfails
      cases hfails
    · exact hcall

end TraceFinder

end PatternAutomata
