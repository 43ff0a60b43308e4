import PatternAutomata.Proofs.Backtrack.Continue

/-!
# Journals

A journal tells all that a way does to the captures, and at which positions. It keeps apart what the
match itself writes and what each look-ahead writes that is evaluated on the way. Captures only
depend on the order in which everything is written; an automaton, which runs look-aheads beside the
match, does not see that order.
-/

namespace PatternAutomata

/-- An operation on the captures, and where in the text it takes place. -/
structure Write where
  op : CaptureOp
  position : Nat

namespace Write

/-- What is written. -/
def value (w : Write) : Option Nat := w.op.value w.position

def touches (w : Write) (i : Nat) : Bool := w.op.touches i

end Write

/-- The last of the writes to entry `i`, where later ones come first. -/
def lastWrite (i : Nat) (ws : List Write) : Option Write := ws.find? (·.touches i)

@[simp] theorem lastWrite_nil (i : Nat) : lastWrite i [] = none := rfl

theorem lastWrite_cons (i : Nat) (w : Write) (ws : List Write) :
    lastWrite i (w :: ws) = if w.touches i then some w else lastWrite i ws := by
  unfold lastWrite
  rw [List.find?_cons]
  cases w.touches i <;> rfl

theorem lastWrite_append (i : Nat) (ws ws' : List Write) :
    lastWrite i (ws ++ ws') = (lastWrite i ws).or (lastWrite i ws') := List.find?_append

theorem lastWrite_eq_none {i : Nat} {ws : List Write} :
    lastWrite i ws = none ↔ ∀ w ∈ ws, w.touches i = false := by
  unfold lastWrite
  rw [List.find?_eq_none]
  exact forall₂_congr fun w _ => Bool.not_eq_true _ ▸ Iff.rfl

theorem mem_of_lastWrite {i : Nat} {ws : List Write} {w : Write} (h : lastWrite i ws = some w) :
    w ∈ ws ∧ w.touches i = true := by
  have htouches := List.find?_some h
  exact ⟨List.mem_of_find?_eq_some h, htouches⟩

/-- What is written on a way, always with the last write first. -/
structure Journal where
  /-- What the match itself writes. -/
  own : List Write := []
  /-- What each evaluation of a look-ahead writes, without the look-aheads in it. -/
  inner : List (List Write) := []
  /-- Everything in its order. -/
  log : List Write := []

namespace Journal

/-- What is written in `before` and then in `j`. -/
def after (j before : Journal) : Journal :=
  ⟨j.own ++ before.own, j.inner ++ before.inner, j.log ++ before.log⟩

/-- Writes a journal. What the body of a look-ahead has written itself becomes an entry of its
own. -/
def recorder : Recorder Journal where
  mark := fun op position j => ⟨⟨op, position⟩ :: j.own, j.inner, ⟨op, position⟩ :: j.log⟩
  look := fun _ _ before inside =>
    ⟨before.own, inside.own.take (inside.own.length - before.own.length) :: inside.inner, inside.log⟩

/-- The captures that the writes leave behind. -/
def captures (size : Nat) (j : Journal) : Captures :=
  Array.ofFn fun i : Fin size => (lastWrite i j.log).bind Write.value

/-- The writes all stand at `first` or later. -/
structure From (first : Nat) (j : Journal) : Prop where
  own : ∀ w ∈ j.own, first ≤ w.position
  inner : ∀ ws ∈ j.inner, ∀ w ∈ ws, first ≤ w.position

end Journal

namespace Tree

variable {t : Tree} {x : Subject} {id : NodeId} {first position : Nat}

/-! ## Journals only grow -/

section Frame

variable {next : NodeId → Spot Journal → List (Spot Journal)}

theorem keeps_frame (before : Journal) : Keeps t x Journal.recorder Journal.recorder
    (fun m m' => m' = m.after before) (fun _ => True) first where
  below _ _ _ _ := trivial
  mark := by
    rintro _ _ _ _ _ _ p _ m _ rfl
    rfl
  look := by
    rintro _ _ _ _ _ p _ m _ s s' rfl _ _ hs
    rw [hs]
    have hlength : (s.memory.own ++ before.own).length - (m.own ++ before.own).length =
        s.memory.own.length - m.own.length := by
      simp only [List.length_append]
      omega
    have htake : (s.memory.own ++ before.own).take (s.memory.own.length - m.own.length) =
        s.memory.own.take (s.memory.own.length - m.own.length) :=
      List.take_append_of_le_length (Nat.sub_le ..)
    simp only [Journal.recorder, Journal.after, hlength, htake]
    rfl

/-- What was written before does not matter. -/
theorem Alike.frame {before : Journal} (h : Alike (fun m m' => m' = m.after before) 0 next next id) :
    next id ⟨position, before⟩ =
      (next id ⟨position, {}⟩).map fun s => ⟨s.position, s.memory.after before⟩ := by
  have hall := h ⟨position, {}⟩ ⟨position, before⟩ ⟨rfl, rfl⟩ (Nat.zero_le _)
  have heq : List.Forall₂ (· = ·) (next id ⟨position, before⟩)
      ((next id ⟨position, {}⟩).map fun s => ⟨s.position, s.memory.after before⟩) := by
    rw [List.forall₂_map_right_iff]
    refine hall.flip.imp ?_
    rintro s' s ⟨⟨hposition, hmemory⟩, -⟩
    exact congr (congrArg Spot.mk hposition) hmemory
  rwa [List.forall₂_eq_eq_eq] at heq

variable (h : t.WellFormed)
include h

theorem ways_frame (before : Journal) : t.ways x Journal.recorder id ⟨position, before⟩ =
    (t.ways x Journal.recorder id ⟨position, {}⟩).map fun s =>
      ⟨s.position, s.memory.after before⟩ :=
  (alike_ways h (keeps_frame before) trivial).frame

theorem goOn_frame {entered : NodeId → Bool} {here : Nat} (before : Journal) :
    t.goOn x Journal.recorder entered here id ⟨position, before⟩ =
      (t.goOn x Journal.recorder entered here id ⟨position, {}⟩).map fun s =>
        ⟨s.position, s.memory.after before⟩ :=
  (alike_goOn h (keeps_frame before)).frame

/-- What evaluating a look-ahead adds to a journal. -/
theorem look_inside {l : LookAround} {p : Nat} {m : Journal} {s : Spot Journal}
    (hs : (t.ways x Journal.recorder l.body ⟨p, m⟩).head? = some s) :
    ∃ s' ∈ t.ways x Journal.recorder l.body ⟨p, {}⟩, s.memory = s'.memory.after m ∧
      s.memory.own.take (s.memory.own.length - m.own.length) = s'.memory.own := by
  rw [ways_frame h m, List.head?_map] at hs
  obtain ⟨s', hs', rfl⟩ := Option.map_eq_some_iff.mp hs
  refine ⟨s', List.mem_of_head? hs', rfl, ?_⟩
  simp only [Journal.after, List.length_append, Nat.add_sub_cancel]
  exact List.take_left

end Frame

/-! ## What journals keep -/

/-- What is written from a position on stands there or later. -/
theorem keeps_from : Keeps t x Journal.recorder Journal.recorder
    (fun m m' => m = m' ∧ m.From first) (fun _ => True) first where
  below _ _ _ _ := trivial
  mark := by
    rintro _ _ op _ _ _ p hp m _ ⟨rfl, hm⟩
    refine ⟨rfl, fun w hw => ?_, hm.inner⟩
    rcases List.mem_cons.mp hw with rfl | hw
    · exact hp
    · exact hm.own w hw
  look := by
    rintro _ _ _ _ _ p _ m _ s s' ⟨rfl, hm⟩ _ _ ⟨hs, hinside⟩
    rw [← hs]
    refine ⟨rfl, hm.own, fun ws hws w hw => ?_⟩
    rcases List.mem_cons.mp hws with rfl | hws
    · exact hinside.own w (List.mem_of_mem_take hw)
    · exact hinside.inner ws hws w hw

/-- The operations of a group act within its range. -/
theorem within_of_marks {g : Group} {op : CaptureOp} {lo hi i : Nat}
    (hfits : (NodeKind.group g).FitsIn lo hi) (hop : g.Marks op) (hi' : op.touches i = true) :
    lo ≤ i / 2 ∧ i / 2 < hi := by
  cases hop with
  | reset =>
    have hrange := hfits.1
    simp only [CaptureOp.touches, Bool.and_eq_true, decide_eq_true_eq] at hi'
    omega
  | @start n hn =>
    have hrange := hfits.2 n hn
    simp only [CaptureOp.touches, decide_eq_true_eq] at hi'
    omega
  | @stop n hn =>
    have hrange := hfits.2 n hn
    simp only [CaptureOp.touches, decide_eq_true_eq] at hi'
    omega

/-- Within a range of groups only entries of these groups are written. -/
theorem keeps_within {lo hi : Nat} : Keeps t x Journal.recorder Journal.recorder
    (fun m m' => m = m' ∧ ∀ w ∈ m.own, ∀ i, w.touches i = true → lo ≤ i / 2 ∧ i / 2 < hi)
    (Within t.kind lo hi) first where
  below _ hid _ hc := hid.child hc
  mark := by
    rintro id g op hid hg hop p _ m _ ⟨rfl, hm⟩
    refine ⟨rfl, fun w hw i hi' => ?_⟩
    rcases List.mem_cons.mp hw with rfl | hw
    · have hfits := hid.fitsIn
      rw [hg] at hfits
      exact within_of_marks hfits hop hi'
    · exact hm w hw i hi'
  look := by
    rintro _ _ _ _ _ p _ m _ s s' ⟨rfl, hm⟩ _ _ ⟨hs, -⟩
    rw [← hs]
    exact ⟨rfl, hm⟩

/-- Whether the node is a look-ahead. -/
def isLookAhead (t : Tree) (id : NodeId) : Bool :=
  match t.kind id with
  | .look l => l.direction = .ahead
  | _ => false

/-- Whether the capture group with this number stands inside a look-ahead of the pattern. -/
def insideLookAhead (t : Tree) (group : Nat) : Bool :=
  t.reachable.any fun id => t.isLookAhead id &&
    match t.kind id with
    | .look l => (t.group? l.body).any fun g => g.innerStart ≤ group && group < g.innerEnd
    | _ => false

theorem insideLookAhead_eq_false (h : ∀ id ∈ t.reachable, t.isLookAhead id = false)
    (group : Nat) : t.insideLookAhead group = false :=
  List.any_eq_false.mpr fun id hid => by simp [h id hid]

theorem insideLookAhead_zero (h : t.WellFormed) : t.insideLookAhead 0 = false := by
  refine List.any_eq_false.mpr fun id hid => ?_
  cases hk : t.kind id with
  | look l =>
    have hroot : id ≠ t.root := by
      rintro rfl
      obtain ⟨g, hg⟩ := h.root_group
      rw [hk] at hg
      cases hg
    obtain ⟨hi, hwithin⟩ := (h.within_of_inPattern (inPattern_of_mem_reachable hid)).resolve_left
      hroot
    have hbody := hwithin.child (show l.body ∈ (t.kind id).children by
      rw [hk]
      simp [NodeKind.children])
    cases hg : t.group? l.body with
    | none => simp [hg]
    | some g =>
      have hfits := hbody.fitsIn
      rw [group?_eq_some.mp hg] at hfits
      simp [hg, Nat.ne_of_gt hfits.1.1]
  | _ => simp

/-- Look-aheads only write entries of groups inside them. -/
theorem keeps_insideLookAhead (h : t.WellFormed) : Keeps t x Journal.recorder Journal.recorder
    (fun m m' => m = m' ∧ ∀ ws ∈ m.inner, ∀ w ∈ ws, ∀ i, w.touches i = true →
      t.insideLookAhead (i / 2) = true)
    t.InPattern first where
  below _ hid _ hc := hid.child hc
  mark := by
    rintro _ _ _ _ _ _ _ _ m _ ⟨rfl, hm⟩
    exact ⟨rfl, hm⟩
  look := by
    rintro id l hid hl hdirection p _ m _ s s' ⟨rfl, -⟩ hhead _ ⟨hs, hinside⟩
    rw [← hs]
    refine ⟨rfl, fun ws hws w hw i hi => ?_⟩
    rcases List.mem_cons.mp hws with rfl | hws
    · obtain ⟨⟨g, hg, -, hwithin⟩, -⟩ := h.shaped_of_kind hl
      obtain ⟨s0, hs0, -, htake⟩ := look_inside h hhead
      rw [htake] at hw
      have hown := (alike_ways h (@keeps_within t x 0 _ _) hwithin).memory (Nat.zero_le _)
        (fun w hw => absurd hw List.not_mem_nil) hs0
      refine List.any_eq_true.mpr ⟨id, h.mem_reachable hid, ?_⟩
      simpa [isLookAhead, hl, hdirection, group?_eq_some.mpr hg] using hown w hw i hi
    · exact hinside ws hws w hw i hi

/-- The last write of all is the last of the match itself or of the evaluation of a look-ahead. -/
theorem keeps_lastWrite (h : t.WellFormed) (i : Nat) :
    Keeps t x Journal.recorder Journal.recorder (fun m m' => m = m' ∧
      (∀ w, lastWrite i m.log = some w →
        lastWrite i m.own = some w ∨ ∃ ws ∈ m.inner, lastWrite i ws = some w) ∧
      ((∀ ws ∈ m.inner, lastWrite i ws = none) → lastWrite i m.log = lastWrite i m.own))
      (fun _ => True) first where
  below _ _ _ _ := trivial
  mark := by
    rintro _ _ op _ _ _ p _ m _ ⟨rfl, hlast, hown⟩
    refine ⟨rfl, fun w hw => ?_, fun hinner => ?_⟩
    · simp only [Journal.recorder, lastWrite_cons] at hw ⊢
      split at hw
      · rename_i htouches
        exact .inl (by rw [if_pos htouches]; exact hw)
      · rename_i htouches
        rw [if_neg htouches]
        exact hlast w hw
    · simp only [Journal.recorder, lastWrite_cons]
      rw [hown hinner]
  look := by
    rintro _ l _ _ _ p _ m _ s s' ⟨rfl, -, -⟩ hhead _ ⟨heq, hlast, hown⟩
    rw [← heq]
    obtain ⟨s0, -, hs, htake⟩ := look_inside h hhead
    have hsplit : lastWrite i s.memory.own =
        (lastWrite i s0.memory.own).or (lastWrite i m.own) := by
      rw [hs]
      exact lastWrite_append ..
    refine ⟨rfl, fun w hw => ?_, fun hinner => ?_⟩
    · simp only [Journal.recorder, htake]
      rcases hlast w hw with hw | ⟨ws, hws, hw⟩
      · rw [hsplit, Option.or_eq_some_iff] at hw
        rcases hw with hw | ⟨-, hw⟩
        · exact .inr ⟨_, by simp, hw⟩
        · exact .inl hw
      · exact .inr ⟨ws, by simp [hws], hw⟩
    · simp only [Journal.recorder, htake, List.forall_mem_cons] at hinner ⊢
      rw [hown hinner.2, hsplit, hinner.1, Option.none_or]

/-- The captures are what the writes leave behind, one after the other. -/
theorem keeps_captures (size : Nat) : Keeps t x Journal.recorder Captures.recorder
    (fun m captures => captures = m.captures size) (fun _ => True) first where
  below _ _ _ _ := trivial
  mark := by
    rintro _ _ op _ _ _ p _ m _ rfl
    refine Array.ext (by simp [Captures.recorder, CaptureOp.apply, Journal.captures]) fun i h1 h2 => ?_
    simp only [Captures.recorder, CaptureOp.apply, Journal.captures, Journal.recorder,
      Array.getElem_mapIdx, Array.getElem_ofFn, lastWrite_cons]
    by_cases htouches : (Write.mk op p).touches i = true
    · rw [if_pos htouches]
      exact if_pos htouches
    · rw [if_neg htouches]
      exact if_neg htouches
  look := by
    rintro _ _ _ _ _ p _ m _ s s' rfl _ _ hs
    exact hs

/-! ## The journal of a match -/

/-- The journal of the preferred way to match the whole tree from `start` on. -/
def journalAt (t : Tree) (x : Subject) (start : Nat) : Option Journal :=
  ((t.ways x Journal.recorder t.root ⟨start, {}⟩).head?).map Spot.memory

/-- What a journal keeps holds of that of the match. -/
theorem of_journalAt (h : t.WellFormed) {P : Journal → Prop} {S : NodeId → Prop}
    (hk : Keeps t x Journal.recorder Journal.recorder (fun m m' => m = m' ∧ P m) S 0)
    (hroot : S t.root) (hP : P {}) {start : Nat} {j : Journal} (hj : t.journalAt x start = some j) :
    P j := by
  obtain ⟨s, hs, rfl⟩ := Option.map_eq_some_iff.mp hj
  exact (alike_ways h hk hroot).memory (Nat.zero_le _) hP (List.mem_of_mem_head? hs)

/-- Look-aheads write nothing outside of them. -/
theorem lastWrite_inner_of_journalAt (h : t.WellFormed) {start : Nat} {j : Journal}
    (hj : t.journalAt x start = some j) {i : Nat} (hi : t.insideLookAhead (i / 2) = false) :
    ∀ ws ∈ j.inner, lastWrite i ws = none := fun ws hws => lastWrite_eq_none.mpr fun w hw => by
  have hlook := of_journalAt h (keeps_insideLookAhead h) .root (by simp) hj ws hws w hw i
  simpa [hi] using hlook

theorem matchAt_eq (h : t.WellFormed) (start : Nat) :
    t.matchAt x start = (t.journalAt x start).map (Journal.captures (2 * t.groupCount)) := by
  have hunset : (Array.replicate (2 * t.groupCount) none : Captures) =
      Journal.captures (2 * t.groupCount) {} :=
    Array.ext (by simp [Journal.captures]) fun i _ _ => by simp [Journal.captures]
  have halike : Alike _ 0 (t.ways x Journal.recorder) (t.ways x Captures.recorder) t.root :=
    alike_ways h (keeps_captures (2 * t.groupCount)) trivial
  have hall := halike ⟨start, {}⟩ ⟨start, Array.replicate (2 * t.groupCount) none⟩ ⟨rfl, hunset⟩
    (Nat.zero_le _)
  unfold matchAt journalAt
  simp only
  generalize t.ways x Journal.recorder t.root _ = ways at hall ⊢
  generalize t.ways x Captures.recorder t.root _ = ways' at hall ⊢
  cases hall with
  | nil => rfl
  | cons hab _ => exact congrArg some hab.1.memory

end Tree

end PatternAutomata
