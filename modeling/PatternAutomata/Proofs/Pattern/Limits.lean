import PatternAutomata.Compile
import PatternAutomata.Proofs.Pattern.Kinds
import PatternAutomata.Proofs.Pattern.Lexemes

/-!
# The limits of the reader

The reader looks at its limits only to end with a bailout. Without them it would go one way through
the pattern, to the tree or to the first fault, and would take a certain amount of each limit on that
way. `exists_usage` says so: a budget with room for these amounts leads to the tree or to the fault,
and any other budget to a bailout. Such a bailout tells nothing about the text further on, so it does
not mean that the pattern is valid; a bailout of a later stage does. Of a pattern that has a tree the
amounts are known: the nodes and the groups of the tree, and what `lexemes` counts in the text.
-/

namespace PatternAutomata

/-! ## Amounts -/

/-- How much of each limit of the reader is taken. -/
structure Usage where
  nodes : Nat := 0
  iterations : Nat := 0
  groups : Nat := 0
  depth : Nat := 0

namespace Usage

variable {u v : Usage} {b : Budget}

structure FitsIn (u : Usage) (b : Budget) : Prop where
  nodes : u.nodes ≤ b.maxTreeSize
  iterations : u.iterations ≤ b.maxCountedRepetition
  groups : u.groups ≤ b.maxCaptureGroups
  depth : u.depth ≤ b.maxNestingDepth

/-- What is taken by one computation after the other. -/
def sup (u v : Usage) : Usage where
  nodes := max u.nodes v.nodes
  iterations := max u.iterations v.iterations
  groups := max u.groups v.groups
  depth := max u.depth v.depth

theorem fitsIn_sup : (u.sup v).FitsIn b ↔ u.FitsIn b ∧ v.FitsIn b := by
  constructor
  · rintro ⟨h1, h2, h3, h4⟩
    simp only [sup, Nat.max_le] at h1 h2 h3 h4
    exact ⟨⟨h1.1, h2.1, h3.1, h4.1⟩, h1.2, h2.2, h3.2, h4.2⟩
  · rintro ⟨h, h'⟩
    exact ⟨Nat.max_le.mpr ⟨h.nodes, h'.nodes⟩, Nat.max_le.mpr ⟨h.iterations, h'.iterations⟩,
      Nat.max_le.mpr ⟨h.groups, h'.groups⟩, Nat.max_le.mpr ⟨h.depth, h'.depth⟩⟩

theorem fitsIn_zero (b : Budget) : ({} : Usage).FitsIn b :=
  ⟨Nat.zero_le _, Nat.zero_le _, Nat.zero_le _, Nat.zero_le _⟩

@[simp] theorem sup_zero (u : Usage) : u.sup {} = u := by
  simp only [sup, Nat.max_zero]

@[simp] theorem zero_sup (u : Usage) : ({} : Usage).sup u = u := by
  simp only [sup, Nat.zero_max]

theorem exists_room (u : Usage) : ∃ b, u.FitsIn b :=
  ⟨{ maxTreeSize := u.nodes
     maxCountedRepetition := u.iterations
     maxCaptureGroups := u.groups
     maxNestingDepth := u.depth },
    Nat.le_refl _, Nat.le_refl _, Nat.le_refl _, Nat.le_refl _⟩

end Usage

/-! ## Growing -/

namespace Grow

variable {α β ι : Type}

/-- From given nodes the computation goes one way, whatever the limit is. It fails only if the limit
does not leave room for the nodes in the end; where it adds none it does not look at the limit. -/
def Settled (g : Grow α) : Prop :=
  ∀ kinds, ∃ (n : Nat) (v : α) (kinds' : Array NodeKind), max n kinds.size = kinds'.size ∧ ∀ limit,
    (n ≤ limit → g.run ⟨limit, kinds⟩ = .ok (v, ⟨limit, kinds'⟩)) ∧
      (limit < n → g.run ⟨limit, kinds⟩ = .error (Stage.parse.exceeded .treeSize))

theorem settled_pure (v : α) : Settled (pure v : Grow α) := fun kinds =>
  ⟨0, v, kinds, Nat.zero_max _, fun _ => ⟨fun _ => rfl, fun h => absurd h (Nat.not_lt_zero _)⟩⟩

theorem settled_add (kind : NodeKind) : Settled (add kind) := by
  intro kinds
  refine ⟨kinds.size + 1, kinds.size, kinds.push kind, ?_, fun limit => ⟨fun h => ?_, fun h => ?_⟩⟩
  · rw [Array.size_push]
    omega
  · exact if_pos h
  · exact if_neg (Nat.not_lt.mpr (Nat.le_of_lt_succ h))

theorem settled_bind {g : Grow α} {f : α → Grow β} (hg : Settled g) (hf : ∀ v, Settled (f v)) :
    Settled (g >>= f) := by
  intro kinds
  obtain ⟨n, v, kinds1, hn, h1⟩ := hg kinds
  obtain ⟨m, w, kinds2, hm, h2⟩ := hf v kinds1
  refine ⟨max n m, w, kinds2, by omega, fun limit => ⟨fun h => ?_, fun h => ?_⟩⟩
  · rw [StateT.run_bind, (h1 limit).1 (Nat.max_le.mp h).1]
    exact (h2 limit).1 (Nat.max_le.mp h).2
  · rw [StateT.run_bind]
    rcases Nat.lt_or_ge limit n with hn | hn
    · rw [(h1 limit).2 hn]
      rfl
    · rw [(h1 limit).1 hn]
      exact (h2 limit).2 (by omega)

theorem settled_get_bind {f : Arena → Grow β} (hf : ∀ a a', a'.kinds = a.kinds → f a' = f a)
    (h : ∀ a, Settled (f a)) : Settled ((get : Grow Arena) >>= f) := by
  intro kinds
  obtain ⟨n, v, kinds', hn, hrun⟩ := h ⟨0, kinds⟩ kinds
  refine ⟨n, v, kinds', hn, fun limit => ?_⟩
  have hget : ((get : Grow Arena) >>= f).run ⟨limit, kinds⟩ = (f ⟨0, kinds⟩).run ⟨limit, kinds⟩ := by
    rw [← hf ⟨0, kinds⟩ ⟨limit, kinds⟩ rfl]
    rfl
  rw [hget]
  exact hrun limit

theorem settled_mapM {f : ι → Grow α} {is : List ι} (hf : ∀ i, Settled (f i)) :
    Settled (is.mapM f) := by
  induction is with
  | nil => exact settled_pure []
  | cons i is ih =>
    rw [List.mapM_cons]
    exact settled_bind (hf i) fun v => settled_bind ih fun vs => settled_pure (v :: vs)

theorem settled_foldrM {f : ι → β → Grow β} {is : List ι} (hf : ∀ i v, Settled (f i v)) (v : β) :
    Settled (is.foldrM f v) := by
  induction is with
  | nil => exact settled_pure v
  | cons i is ih =>
    rw [List.foldrM_cons]
    exact settled_bind ih fun w => hf i w

theorem settled_look (direction : Direction) (negated : Bool) (body : NodeId) :
    Settled (look direction negated body) :=
  settled_bind (settled_add _) fun _ => settled_add _

theorem settled_copyWithin (fuel : Nat) (id : NodeId) : Settled (copyWithin fuel id) := by
  induction fuel generalizing id with
  | zero => exact settled_pure id
  | succ fuel ih =>
    refine settled_get_bind (fun a a' h => by simp only [h]) fun a => ?_
    split
    · exact settled_bind (settled_mapM ih) fun _ => settled_add _
    · exact settled_bind (settled_mapM ih) fun _ => settled_add _
    · exact settled_bind (ih _) (settled_look _ _)
    · exact settled_add _

theorem settled_copy (id : NodeId) : Settled (copy id) :=
  settled_get_bind (fun a a' h => by simp only [h]) fun a => settled_copyWithin a.kinds.size id

end Grow

/-- The settings with the limits of a budget. -/
abbrev Settings.under (s : Settings) (b : Budget) : Settings :=
  s.withLimits b.maxCountedRepetition b.maxCaptureGroups b.maxNestingDepth

namespace Pattern

/-! ## Quantifiers and groups -/

section Quantify

open Grow

variable {lo hi : Nat}

theorem settled_instanceOf (atom : NodeId) (used : Bool) : Settled (instanceOf atom used) := by
  unfold instanceOf
  split
  · exact settled_copy atom
  · exact settled_pure atom

theorem settled_optional (terms : List NodeId) (greedy : Bool) (role : GroupRole) :
    Settled (optional terms greedy role lo hi) :=
  settled_bind (settled_add _) fun _ => settled_bind (settled_add _) fun _ => settled_add _

theorem settled_mandatory (atom : NodeId) (n : Nat) (used : Bool) :
    Settled (mandatory atom lo hi n used) := by
  induction n generalizing used with
  | zero => exact settled_pure []
  | succ n ih =>
    refine settled_bind (settled_instanceOf atom used) fun iteration => ?_
    have hrest : ∀ term, Settled (mandatory atom lo hi n true >>= fun more => pure (term :: more)) :=
      fun term => settled_bind (ih true) fun more => settled_pure (term :: more)
    simp only
    split
    · exact settled_bind (settled_add _) fun _ => settled_bind (settled_add _) hrest
    · exact hrest iteration

theorem settled_instances (atom : NodeId) (n : Nat) (used : Bool) :
    Settled (instances atom n used) := by
  induction n generalizing used with
  | zero => exact settled_pure []
  | succ n ih =>
    exact settled_bind (settled_instanceOf atom used) fun iteration =>
      settled_bind (ih true) fun more => settled_pure (iteration :: more)

theorem settled_nested (bodies : List NodeId) (greedy : Bool) :
    Settled (nested bodies greedy lo hi) :=
  settled_foldrM (fun body inner => settled_bind
    (settled_optional (body :: inner) greedy .unrolled) fun term => settled_pure [term]) []

theorem settled_quantify (q : Quantifier) (atom : NodeId) (lo hi : Nat) :
    Settled (quantify q atom lo hi) := by
  refine settled_bind (settled_mandatory atom q.min false) fun needed => ?_
  cases q.max with
  | none =>
    exact settled_bind (settled_instanceOf atom _) fun body =>
      settled_bind (settled_optional [body] q.greedy .loop) fun loop => settled_pure (needed ++ [loop])
  | some max =>
    exact settled_bind (settled_instances atom _ _) fun bodies =>
      settled_bind (settled_nested bodies q.greedy) fun terms => settled_pure (needed ++ terms)

theorem settled_groupNode (s : Settings) (f : Frame) (alternatives : List NodeId) (hi : Nat) :
    Settled (Reader.groupNode s f alternatives hi) := by
  unfold Reader.groupNode
  cases f.opening with
  | look direction negated =>
    exact settled_bind (settled_add _) fun body =>
      settled_bind (settled_look direction negated body) fun id => settled_pure (id, _)
  | _ => exact settled_bind (settled_add _) fun id => settled_pure (id, true)

end Quantify

/-! ## Computations under a budget -/

section Settled

variable {α β : Type} {P : Usage → (Budget → α) → Prop} {Q : Usage → (Budget → β) → Prop}

/-- How a computation ends that no limit ends. -/
def outcome (x : Except SyntaxError (Budget → α)) (b : Budget) : Except CompileError α :=
  match x with
  | .ok a => .ok (a b)
  | .error e => .error (.malformed e)

/-- What the computation takes of the limits, and how it ends under a budget with room for that. -/
structure Takes (f : Budget → Except CompileError α) (u : Usage)
    (x : Except SyntaxError (Budget → α)) : Prop where
  fits : ∀ b, u.FitsIn b → f b = outcome x b
  exceeds : ∀ b, ¬ u.FitsIn b → ∃ l, f b = .error (.bailout (Stage.parse.exceeded l))

/-- The computation goes one way, whatever the budget is; `P` tells what it takes of the limits, and
how the result depends on the budget. -/
def Settled (P : Usage → (Budget → α) → Prop) (f : Budget → Except CompileError α) : Prop :=
  ∃ u x, (∀ a, x = .ok a → P u a) ∧ Takes f u x

theorem settled_ok {a : Budget → α} (h : P {} a) : Settled P fun b => .ok (a b) := by
  refine ⟨{}, .ok a, fun _ ha => ?_, fun b _ => rfl, fun b hb => absurd (Usage.fitsIn_zero b) hb⟩
  cases ha
  exact h

theorem Settled.imp {P' : Usage → (Budget → α) → Prop} {f : Budget → Except CompileError α}
    (h : Settled P f) (hP : ∀ u a, P u a → P' u a) : Settled P' f := by
  obtain ⟨u, x, hx, htakes⟩ := h
  exact ⟨u, x, fun a ha => hP u a (hx a ha), htakes⟩

theorem settled_malformed (e : SyntaxError) : Settled P fun _ => .error (.malformed e) :=
  ⟨{}, .error e, nofun, fun _ _ => rfl, fun b hb => absurd (Usage.fitsIn_zero b) hb⟩

theorem settled_bind {f : Budget → Except CompileError α} {g : Budget → α → Except CompileError β}
    (hf : Settled P f) (hg : ∀ u a, P u a → Settled (fun v => Q (u.sup v)) fun b => g b (a b)) :
    Settled Q fun b => f b >>= g b := by
  obtain ⟨u, x, hx, h⟩ := hf
  cases x with
  | error e =>
    refine ⟨u, .error e, nofun, fun b hb => ?_, fun b hb => ?_⟩
    · rw [h.fits b hb]
      rfl
    · obtain ⟨l, hl⟩ := h.exceeds b hb
      exact ⟨l, by rw [hl]; rfl⟩
  | ok a =>
    obtain ⟨v, y, hy, h'⟩ := hg u a (hx a rfl)
    refine ⟨u.sup v, y, hy, fun b hb => ?_, fun b hb => ?_⟩
    · obtain ⟨hu, hv⟩ := Usage.fitsIn_sup.mp hb
      rw [h.fits b hu]
      exact h'.fits b hv
    · by_cases hu : u.FitsIn b
      · rw [h.fits b hu]
        exact h'.exceeds b fun hv => hb (Usage.fitsIn_sup.mpr ⟨hu, hv⟩)
      · obtain ⟨l, hl⟩ := h.exceeds b hu
        exact ⟨l, by rw [hl]; rfl⟩

/-- A limit is looked at before going on. -/
theorem settled_limit {f : Budget → Except CompileError α} {c : Budget → Prop} [DecidablePred c]
    (l : Limit) (u : Usage) (hu : ∀ b, u.FitsIn b ↔ ¬ c b)
    (hf : Settled (fun v => P (u.sup v)) f) :
    Settled P fun b => if c b then .error (.bailout (Stage.parse.exceeded l)) else f b := by
  obtain ⟨v, x, hx, h⟩ := hf
  refine ⟨u.sup v, x, hx, fun b hb => ?_, fun b hb => ?_⟩
  · obtain ⟨hc, hv⟩ := Usage.fitsIn_sup.mp hb
    rw [if_neg ((hu b).mp hc)]
    exact h.fits b hv
  · by_cases hc : c b
    · exact ⟨l, if_pos hc⟩
    · rw [if_neg hc]
      exact h.exceeds b fun hv => hb (Usage.fitsIn_sup.mpr ⟨(hu b).mpr hc, hv⟩)

end Settled

/-! ## Steps of the reader -/

variable {s : Settings} {r : Reader} {u : Usage}

theorem fitsIn_iterations {b : Budget} {n : Nat} :
    ({ iterations := n } : Usage).FitsIn b ↔ n ≤ b.maxCountedRepetition :=
  ⟨fun h => h.iterations, fun h => ⟨Nat.zero_le _, h, Nat.zero_le _, Nat.zero_le _⟩⟩

/-- Where the count is not exceeded, what is counted is not more than the limit. -/
theorem not_exceedsCount_iff {b : Budget} {cur : Cursor} {min : Nat} {max : Option Nat} :
    ¬ exceedsCount (s.under b) cur min max = true ↔
      Lexeme.mostCounted (countedLexemes cur (max.getD min)) ≤ b.maxCountedRepetition := by
  by_cases hbrace : cur.peek? = some '\x7b'
  · simp [exceedsCount, countedLexemes, Lexeme.mostCounted, hbrace, Settings.withLimits]
  · simp [exceedsCount, countedLexemes, Lexeme.mostCounted, hbrace]

/-- The quantifier that comes next does not depend on the budget, and takes the number in braces. -/
theorem settled_quantifier (cur : Cursor) :
    Settled (fun u a => ∃ q?, (a = fun _ => (q?, (quantifierLexemes cur).2)) ∧
      u = { iterations := Lexeme.mostCounted (quantifierLexemes cur).1 })
      fun b => quantifier (s.under b) cur := by
  unfold quantifier quantifierLexemes
  cases iterations? cur with
  | none =>
    simp only
    show Settled _ fun _ => if s.unicode ∧ cur.peek? = some '\x7b' then _ else _
    split
    · exact settled_malformed _
    · exact settled_ok ⟨none, rfl, rfl⟩
  | some it =>
    obtain ⟨⟨min, max⟩, after⟩ := it
    simp only
    split
    · exact settled_malformed _
    · refine settled_limit (c := fun b => exceedsCount (s.under b) cur min max = true)
        .countedRepetition { iterations := _ }
        (fun b => fitsIn_iterations.trans not_exceedsCount_iff.symm) ?_
      cases after.skip? "?" with
      | none => exact settled_ok ⟨_, rfl, Usage.sup_zero _⟩
      | some last => exact settled_ok ⟨_, rfl, Usage.sup_zero _⟩

theorem settled_atom (c : Char) (cur : Cursor) :
    Settled (fun u a => ∃ found, (a = fun _ => found) ∧ atom s c cur = .ok found ∧ u = {}) fun b =>
      Reader.ofReading (atom (s.under b) c cur) := by
  simp only [atom_withLimits]
  cases atom s c cur with
  | ok found => exact settled_ok ⟨found, rfl, rfl, rfl⟩
  | error e => exact settled_malformed e

namespace Reader

/-- The reader with the limit of a budget. -/
abbrev under (r : Reader) (b : Budget) : Reader :=
  r.withArena { r.arena with limit := b.maxTreeSize }

/-- The amounts `u` are those that are taken between `r` and `q`, where the lexemes `ls` are read. -/
structure Charged (r : Reader) (ls : List Lexeme) (u : Usage) (q : Reader) : Prop where
  nodes : max u.nodes r.arena.kinds.size = q.arena.kinds.size
  iterations : u.iterations = Lexeme.mostCounted ls
  groups : max u.groups (r.nextGroup - 1) = q.nextGroup - 1
  depth : max u.depth r.frames.length = Lexeme.deepest r.frames.length ls
  frames : q.frames.length = Lexeme.openAfter r.frames.length ls

/-- Nothing is taken where no node, no group and no frame is added. -/
theorem charged_zero {q : Reader} (hnodes : q.arena = r.arena) (hnames : q.names = r.names)
    (hframes : q.frames = r.frames) : Charged r [] {} q where
  nodes := hnodes ▸ Nat.zero_max _
  iterations := rfl
  groups := by rw [nextGroup, nextGroup, hnames, Nat.zero_max]
  depth := Nat.zero_max _
  frames := congrArg List.length hframes

theorem Charged.trans {q q' : Reader} {ls ls' : List Lexeme} {u v : Usage}
    (h : Charged r ls u q) (h' : Charged q ls' v q') : Charged r (ls ++ ls') (u.sup v) q' where
  nodes := by
    have := h.nodes
    have := h'.nodes
    simp only [Usage.sup]
    omega
  iterations := by
    rw [Lexeme.mostCounted_append, ← h.iterations, ← h'.iterations]
    rfl
  groups := by
    have := h.groups
    have := h'.groups
    simp only [Usage.sup]
    omega
  depth := by
    have hle := Lexeme.openAfter_le_deepest r.frames.length ls
    have := h.depth
    have := h'.depth
    rw [h.frames] at this
    rw [Lexeme.deepest_append]
    simp only [Usage.sup]
    omega
  frames := by rw [h'.frames, h.frames, Lexeme.openAfter_append]

/-- Nothing is read before `q`. -/
theorem Charged.before {q q' : Reader} {ls : List Lexeme} {u v : Usage} (h : Charged r [] u q)
    (h' : Charged q ls v q') : Charged r ls (u.sup v) q' := h.trans h'

/-- Nothing is read after `q`. -/
theorem Charged.after {q q' : Reader} {ls : List Lexeme} {u v : Usage} (h : Charged r ls u q)
    (h' : Charged q [] v q') : Charged r ls (u.sup v) q' := by
  simpa only [List.append_nil] using h.trans h'

theorem charged_quantifier (r : Reader) (cursor : Cursor) :
    Charged r (quantifierLexemes r.cursor).1
      { iterations := Lexeme.mostCounted (quantifierLexemes r.cursor).1 } { r with cursor } where
  nodes := Nat.zero_max _
  iterations := rfl
  groups := Nat.zero_max _
  depth := (Nat.zero_max _).trans (deepest_quantifierLexemes _ _).1.symm
  frames := (deepest_quantifierLexemes _ _).2.symm

/-- What is taken between `r` and where a part of the reader ends that reads `read?`, the lexemes up
to a cursor. Of the budget the reader has the limit only. -/
def Charges (r : Reader) (read? : Option (List Lexeme × Cursor)) (u : Usage) (a : Budget → Reader) :
    Prop :=
  ∃ (q : Reader) (ls : List Lexeme), a = q.under ∧ read? = some (ls, q.cursor) ∧ Charged r ls u q

theorem Charged.charges {q : Reader} {ls : List Lexeme} {u : Usage} (h : Charged r ls u q) :
    Charges r (some (ls, q.cursor)) u q.under := ⟨q, ls, rfl, rfl, h⟩

theorem settled_grow {α : Type} {g : Grow α} (hg : Grow.Settled g) (r : Reader) :
    Settled (fun u a => ∃ (v : α) (arena : Arena), (a = fun b => (v, under { r with arena } b)) ∧
      Charged r [] u { r with arena }) fun b => (r.under b).grow g := by
  obtain ⟨cursor, ⟨limit, kinds⟩, names, level, frames⟩ := r
  obtain ⟨n, v, kinds', hn, hrun⟩ := hg kinds
  have hnodes : ∀ b : Budget, ({ nodes := n } : Usage).FitsIn b ↔ n ≤ b.maxTreeSize := fun b =>
    ⟨fun h => h.nodes, fun h => ⟨h, Nat.zero_le _, Nat.zero_le _, Nat.zero_le _⟩⟩
  refine ⟨{ nodes := n }, .ok fun b =>
    (v, under ⟨cursor, ⟨limit, kinds'⟩, names, level, frames⟩ b), fun a ha => ?_, fun b hb => ?_,
    fun b hb => ⟨.treeSize, ?_⟩⟩
  · cases ha
    exact ⟨v, ⟨limit, kinds'⟩, rfl, hn, rfl, Nat.zero_max _, Nat.zero_max _, rfl⟩
  · have h := (hrun b.maxTreeSize).1 ((hnodes b).mp hb)
    simp only [grow, h]
    rfl
  · have h := (hrun b.maxTreeSize).2 (Nat.lt_of_not_le fun h => hb ((hnodes b).mpr h))
    simp only [grow, h]

/-- What follows the growing of the tree. -/
theorem settled_grow_bind {α β : Type} {g : Grow α} (hg : Grow.Settled g)
    {f : Budget → α × Reader → Except CompileError β} {P : Usage → (Budget → β) → Prop}
    (hf : ∀ u v arena, Charged r [] u { r with arena } →
      Settled (fun u' => P (u.sup u')) fun b => f b (v, under { r with arena } b)) :
    Settled P fun b => (r.under b).grow g >>= f b := by
  refine settled_bind (settled_grow hg r) ?_
  rintro u _ ⟨v, arena, rfl, h⟩
  exact hf u v arena h

theorem settled_endAlternative (r : Reader) :
    Settled (fun u a => ∃ q : Reader, a = q.under ∧ q.cursor = r.cursor ∧ q.frames = r.frames ∧
      Charged r [] u q) fun b => (r.under b).endAlternative := by
  refine settled_grow_bind (Grow.settled_add (.sequence r.level.terms.reverse)) fun u id arena h => ?_
  exact settled_ok ⟨{ r with arena, level := { alternatives := id :: r.level.alternatives } }, rfl,
    rfl, rfl, h.after (charged_zero rfl rfl rfl)⟩

theorem settled_endTerm (id : NodeId) (quantifiable : Bool) (firstGroup : Nat) (r : Reader) :
    Settled (Charges r (some (quantifierLexemes r.cursor))) fun b =>
      endTerm (s.under b) id quantifiable firstGroup (r.under b) := by
  refine settled_bind (settled_quantifier r.cursor) ?_
  rintro _ _ ⟨q?, rfl, rfl⟩
  have hread := charged_quantifier r (quantifierLexemes r.cursor).2
  cases q? with
  | none =>
    have h := hread.after (charged_zero (q := { r with
      cursor := (quantifierLexemes r.cursor).2
      level := { r.level with terms := id :: r.level.terms } }) rfl rfl rfl)
    exact settled_ok h.charges
  | some quant =>
    cases quantifiable with
    | true =>
      refine settled_grow_bind (r := { r with cursor := (quantifierLexemes r.cursor).2 })
        (settled_quantify quant id firstGroup r.nextGroup) fun u ids arena hgrow => ?_
      have h := hread.after (hgrow.after (charged_zero (q := { r with
        cursor := (quantifierLexemes r.cursor).2
        arena
        level := { r.level with terms := ids.reverse ++ r.level.terms } }) rfl rfl rfl))
      exact settled_ok h.charges
    | false => exact settled_malformed ⟨r.cursor.pos, .nothingToRepeat⟩

/-- The innermost group is closed before what follows. -/
theorem Charged.closing {q q' : Reader} {frame : Frame} {ls : List Lexeme} (h : Charged q ls u q')
    (hnodes : q.arena = r.arena) (hnames : q.names = r.names) (hframes : r.frames = frame :: q.frames) :
    Charged r (.closing :: ls) u q' := by
  have hclose : Charged r [.closing] {} q :=
    { nodes := hnodes ▸ Nat.zero_max _
      iterations := rfl
      groups := by rw [nextGroup, nextGroup, hnames, Nat.zero_max]
      depth := by simp [hframes, Lexeme.deepest]
      frames := by simp [hframes, Lexeme.openAfter] }
  rw [← Usage.zero_sup u]
  exact hclose.trans h

/-- One more group is open, and the limit on these has been looked at. -/
theorem charged_opening {q : Reader} {frame : Frame} (hnodes : q.arena = r.arena)
    (hgroups : max u.groups (r.nextGroup - 1) = q.nextGroup - 1)
    (hframes : q.frames = frame :: r.frames) (hu : u.nodes = 0 ∧ u.iterations = 0 ∧ u.depth = 0) :
    Charged r [.opening] (Usage.sup { depth := r.frames.length + 1 } u) q where
  nodes := by simp [Usage.sup, hu, hnodes]
  iterations := by simp [Usage.sup, hu, Lexeme.mostCounted]
  groups := by simpa [Usage.sup] using hgroups
  depth := by simp [Usage.sup, hu, Lexeme.deepest]
  frames := congrArg List.length hframes

theorem settled_openCapture (name : Option String) (cursor : Cursor) (r : Reader) :
    Settled (fun u => Charges r (some ([.opening], cursor))
      (Usage.sup { depth := r.frames.length + 1 } u)) fun b =>
        openCapture (s.under b) name cursor (r.under b) := by
  refine settled_limit (c := fun b => (s.under b).maxCaptureGroups < r.nextGroup) .captureGroups
    { groups := r.nextGroup } (fun b => ?_) ?_
  · rw [Nat.not_lt]
    exact ⟨fun h => h.groups, fun h => ⟨Nat.zero_le _, Nat.zero_le _, h, Nat.zero_le _⟩⟩
  · simp only
    cases name.filter fun n => r.names.contains (some n) with
    | some n => exact settled_malformed ⟨r.cursor.pos, .duplicateGroupName n⟩
    | none =>
      have h := charged_opening (r := r) (u := Usage.sup { groups := r.nextGroup } {}) (q := { r with
        cursor
        names := r.names.push name
        level := {}
        frames := ⟨.capture r.nextGroup, r.cursor.pos, r.nextGroup, r.level⟩ :: r.frames }) rfl
        (by simp [Usage.sup, nextGroup]) rfl ⟨rfl, rfl, rfl⟩
      exact settled_ok h.charges

theorem settled_openGroup (r : Reader) :
    Settled (Charges r ((afterOpening? r.cursor).map fun after => ([.opening], after))) fun b =>
      (r.under b).openGroup (s.under b) := by
  have hother : ∀ (opening : Opening) (cursor : Cursor),
      Settled (fun v => Charges r (some ([.opening], cursor))
        (Usage.sup { depth := r.frames.length + 1 } v)) fun b =>
          .ok (openOther opening cursor (r.under b)) := fun opening cursor =>
    settled_ok (charged_opening (r := r) (u := {}) (q := r.openOther opening cursor) rfl
      (Nat.zero_max _) rfl ⟨rfl, rfl, rfl⟩).charges
  unfold openGroup afterOpening?
  refine settled_limit (c := fun b => (s.under b).maxNestingDepth ≤ r.frames.length) .nestingDepth
    { depth := r.frames.length + 1 } (fun b => ?_) ?_
  · rw [Nat.not_le]
    exact ⟨fun h => h.depth, fun h => ⟨Nat.zero_le _, Nat.zero_le _, Nat.zero_le _, h⟩⟩
  · simp only
    generalize (r.cursor.drop 1).rest = w
    split
    · exact hother _ _
    · exact hother _ _
    · exact hother _ _
    · exact hother _ _
    · exact hother _ _
    · try simp only
      cases groupName ((r.cursor.drop 1).drop 2) with
      | error e => exact settled_malformed e
      | ok found => exact settled_openCapture (some found.1) found.2 r
    · try simp only
      exact settled_malformed ⟨r.cursor.pos, .invalidGroup⟩
    · try simp only
      exact settled_openCapture none _ r

theorem settled_closeGroup (r : Reader) :
    Settled (Charges r (some (.closing :: (quantifierLexemes (r.cursor.drop 1)).1,
      (quantifierLexemes (r.cursor.drop 1)).2))) fun b => (r.under b).closeGroup (s.under b) := by
  refine settled_bind (settled_endAlternative r) ?_
  rintro u _ ⟨⟨cursor, arena, names, level, frames⟩, rfl, hcursor, hframes, hq⟩
  cases frames with
  | nil => exact settled_malformed ⟨cursor.pos, .unexpectedParenthesis⟩
  | cons f frames =>
    refine settled_grow_bind (r := ⟨cursor, arena, names, level, f :: frames⟩)
      (settled_groupNode s f level.alternatives.reverse names.size) fun v found arena' hgrow => ?_
    refine (settled_endTerm found.1 found.2 f.firstGroup
      ⟨cursor.drop 1, arena', names, f.outer, frames⟩).imp ?_
    rintro w _ ⟨q, ls, rfl, hread, hterm⟩
    obtain ⟨rfl, hlast⟩ := Prod.mk.inj (Option.some.inj hread)
    refine ⟨q, _, rfl, ?_, hq.trans (hgrow.trans (hterm.closing rfl rfl rfl))⟩
    rw [← hcursor, ← hlast]
    rfl

/-- A step takes what the lexemes that it reads count, and the nodes and groups that it adds. -/
theorem settled_step (c : Char) (r : Reader) :
    Settled (Charges r (lexemesAt? s c r.cursor)) fun b => (r.under b).step (s.under b) c := by
  unfold step lexemesAt?
  split
  · refine settled_bind (settled_endAlternative r) ?_
    rintro u _ ⟨q, rfl, hcursor, hframes, hq⟩
    have h := hq.after (charged_zero (q := { q with cursor := q.cursor.drop 1 }) rfl rfl rfl)
    rw [← hcursor]
    exact settled_ok h.charges
  · exact settled_openGroup r
  · exact settled_closeGroup r
  · simp only
    refine settled_bind (settled_atom c r.cursor) ?_
    rintro _ _ ⟨⟨a, cursor⟩, rfl, hatom, rfl⟩
    refine settled_grow_bind (Grow.settled_add a.kind) fun u id arena hgrow => ?_
    refine (settled_endTerm id a.quantifiable r.nextGroup { r with arena, cursor }).imp ?_
    rintro v _ ⟨q, ls, rfl, hread, hterm⟩
    have hmoved : Charged { r with arena } [] {} { r with arena, cursor } := charged_zero rfl rfl rfl
    have h := hgrow.before (hmoved.before hterm)
    simp only [Usage.zero_sup] at h ⊢
    refine ⟨q, ls, rfl, ?_, h⟩
    rw [hatom]
    exact hread

/-- A run takes what the lexemes count that it reads. -/
theorem settled_run (fuel : Nat) (r : Reader) :
    Settled (fun u a => ∃ q : Reader, a = q.under ∧ Charged r (lexemesFrom s fuel r.cursor) u q)
      fun b => run (s.under b) fuel (r.under b) := by
  induction fuel generalizing r with
  | zero => exact settled_ok ⟨r, rfl, charged_zero rfl rfl rfl⟩
  | succ fuel ih =>
    unfold run lexemesFrom
    simp only
    cases r.cursor.peek? with
    | none => exact settled_ok ⟨r, rfl, charged_zero rfl rfl rfl⟩
    | some c =>
      simp only [Option.bind_some]
      refine settled_bind (settled_step c r) ?_
      rintro u _ ⟨q, ls, rfl, hread, hstep⟩
      rw [hread]
      refine (ih q).imp ?_
      rintro v _ ⟨q', rfl, hrun⟩
      exact ⟨q', rfl, hstep.trans hrun⟩

/-- Finishing the tree adds its last node. -/
theorem finish_arena (root : NodeId) (q : Reader) :
    (match q.arena.finish root q.names with
      | .ok t => return t
      | .error b => throw (.bailout b) : Except CompileError Tree) =
    (q.grow (Grow.add .matchFound) >>= fun found => .ok {
      kinds := found.2.arena.kinds
      places := Tree.placesOf found.2.arena.kinds
      root
      matchFound := found.1
      groupNames := found.2.names }) := by
  obtain ⟨cursor, arena, names, level, frames⟩ := q
  simp only [Arena.finish, grow]
  cases (Grow.add .matchFound).run arena with
  | ok found => rfl
  | error b => rfl

theorem settled_finish (r : Reader) :
    Settled (fun u a => ∃ (t : Tree) (q : Reader), (a = fun _ => t) ∧ Charged r [] u q ∧
      t.kinds = q.arena.kinds ∧ t.groupNames = q.names) fun b => (r.under b).finish := by
  refine settled_bind (settled_endAlternative r) ?_
  rintro u _ ⟨⟨cursor, arena, names, level, frames⟩, rfl, -, -, hq⟩
  cases frames with
  | cons f frames => exact settled_malformed ⟨f.start, .unclosedParenthesis⟩
  | nil =>
    refine settled_grow_bind (r := ⟨cursor, arena, names, level, []⟩) (Grow.settled_add (.group
      ⟨level.alternatives.reverse, .capture 0, 1, names.size⟩)) fun v root arena' hroot => ?_
    have hend : Settled (fun w a => ∃ (t : Tree) (q : Reader), (a = fun _ => t) ∧
        Charged r [] (u.sup (v.sup w)) q ∧ t.kinds = q.arena.kinds ∧ t.groupNames = q.names)
        fun b => (under ⟨cursor, arena', names, level, []⟩ b).grow (Grow.add .matchFound) >>= fun found =>
          Except.ok {
            kinds := found.2.arena.kinds
            places := Tree.placesOf found.2.arena.kinds
            root
            matchFound := found.1
            groupNames := found.2.names : Tree } := by
      refine settled_grow_bind (Grow.settled_add .matchFound) fun w id arena'' hlast => ?_
      exact settled_ok ⟨⟨arena''.kinds, Tree.placesOf arena''.kinds, root, id, names⟩, _, rfl,
        hq.before (hroot.before (hlast.after (charged_zero rfl rfl rfl))), rfl, rfl⟩
    simp only [← finish_arena] at hend
    exact hend

end Reader

/-! ## Patterns -/

section Parse

variable (pattern : String) (flags : Flags) (properties : PropertyLookup)

/-- Reading a pattern goes one way, whatever the budget is. For a tree it takes the nodes and the
groups of that, and what the lexemes of the pattern count. -/
theorem settled_parse :
    Settled (fun u a => ∃ t : Tree, (a = fun _ => t) ∧ u = {
      nodes := t.size
      iterations := Lexeme.mostCounted (lexemes pattern flags properties)
      groups := t.groupCount - 1
      depth := Lexeme.deepest 0 (lexemes pattern flags properties) })
      fun b => parse pattern flags b properties := by
  refine settled_bind (Reader.settled_run (s := Settings.new flags {} properties
    (declaredGroups pattern.toList)) _ { cursor := .ofString pattern, arena := { limit := 0 } }) ?_
  rintro u _ ⟨r, rfl, hrun⟩
  refine (Reader.settled_finish r).imp ?_
  rintro v _ ⟨t, q, rfl, hfinish, hkinds, hnames⟩
  obtain ⟨hnodes, hiterations, hgroups, hdepth, -⟩ := hrun.after hfinish
  refine ⟨t, rfl, ?_⟩
  generalize u.sup v = w at hnodes hiterations hgroups hdepth ⊢
  obtain ⟨nodes, iterations, groups, depth⟩ := w
  simp only [Usage.mk.injEq]
  refine ⟨?_, hiterations, ?_, (Nat.max_zero depth).symm.trans hdepth⟩
  · rw [Tree.size, hkinds]
    exact (Nat.max_zero nodes).symm.trans hnodes
  · rw [Tree.groupCount, hnames]
    exact (Nat.max_zero groups).symm.trans hgroups

/-- The budget decides only whether reading ends with a bailout. For a tree it does not if the tree
and the lexemes of the pattern keep to its limits. -/
theorem exists_exactUsage : ∃ (u : Usage) (answer : Except SyntaxError Tree),
    (∀ budget,
      (u.FitsIn budget → parse pattern flags budget properties = answer.mapError .malformed) ∧
      (¬ u.FitsIn budget → ∃ l, parse pattern flags budget properties =
        .error (.bailout (Stage.parse.exceeded l)))) ∧
    ∀ t, answer = .ok t → u = {
      nodes := t.size
      iterations := Lexeme.mostCounted (lexemes pattern flags properties)
      groups := t.groupCount - 1
      depth := Lexeme.deepest 0 (lexemes pattern flags properties) } := by
  obtain ⟨u, x, hx, hfits, hexceeds⟩ := settled_parse pattern flags properties
  cases x with
  | error e => exact ⟨u, .error e, fun budget => ⟨hfits budget, hexceeds budget⟩, nofun⟩
  | ok t =>
    obtain ⟨t, rfl, hu⟩ := hx _ rfl
    refine ⟨u, .ok t, fun budget => ⟨hfits budget, hexceeds budget⟩, ?_⟩
    rintro _ ⟨⟩
    exact hu

/-- A tree has no more nodes than the budget allows. -/
theorem size_le_of_parse {budget : Budget} {t : Tree}
    (h : parse pattern flags budget properties = .ok t) : t.size ≤ budget.maxTreeSize := by
  obtain ⟨u, answer, hanswer, hu⟩ := exists_exactUsage pattern flags properties
  obtain ⟨hfits, hexceeds⟩ := hanswer budget
  by_cases hbudget : u.FitsIn budget
  · cases answer with
    | error e => cases h.symm.trans (hfits hbudget)
    | ok t' =>
      cases h.symm.trans (hfits hbudget)
      rw [hu t rfl] at hbudget
      exact hbudget.nodes
  · obtain ⟨l, hl⟩ := hexceeds hbudget
    cases h.symm.trans hl

/-- The budget decides only whether reading ends with a bailout. -/
theorem exists_usage : ∃ (u : Usage) (answer : Except SyntaxError Tree), ∀ budget,
    (u.FitsIn budget → parse pattern flags budget properties = answer.mapError .malformed) ∧
    (¬ u.FitsIn budget → ∃ l, parse pattern flags budget properties =
      .error (.bailout (Stage.parse.exceeded l))) := by
  obtain ⟨u, answer, h, -⟩ := exists_exactUsage pattern flags properties
  exact ⟨u, answer, h⟩

end Parse

end Pattern

/-! ## Compiled patterns -/

section Compile

variable {pattern : String} {flags : Flags} {budget : Budget} {properties : PropertyLookup}

theorem compile_of_parse_error {e : CompileError}
    (h : Pattern.parse pattern flags budget.clamp properties = .error e) :
    compile pattern flags budget properties = .error e := by
  simp only [compile, h]
  rfl

/-- A pattern that has a tree is not malformed. -/
theorem compile_of_parse_ok {t : Tree}
    (h : Pattern.parse pattern flags budget.clamp properties = .ok t) (e : SyntaxError) :
    compile pattern flags budget properties ≠ .error (.malformed e) := by
  cases hauto : automaton t flags budget.clamp with
  | ok dfa => simp [compile, h, hauto, bind, Except.bind, pure, Except.pure]
  | error b => simp [compile, h, hauto, bind, Except.bind, throw, throwThe, MonadExceptOf.throw]

end Compile

/-- A bailout means a valid pattern unless a limit of the reader was exceeded. A malformed pattern is
reported as a syntax error if the part up to its first fault keeps to the limits. -/
theorem exists_answer (pattern : String) (flags : Flags) (properties : PropertyLookup) :
    ∃ (u : Usage) (answer : Except SyntaxError Tree),
      (∀ budget, u.FitsIn budget →
        Pattern.parse pattern flags budget properties = answer.mapError .malformed) ∧
      (∀ budget, ¬ u.FitsIn budget → ∃ l,
        Pattern.parse pattern flags budget properties = .error (.bailout (Stage.parse.exceeded l))) ∧
      ∀ budget,
        (∀ b, compile pattern flags budget properties = .error (.bailout b) →
          (∃ t, answer = .ok t) ∨ ¬ u.FitsIn budget.clamp ∧ ∃ l, b = Stage.parse.exceeded l) ∧
        (∀ e, answer = .error e → u.FitsIn budget.clamp →
          compile pattern flags budget properties = .error (.malformed e)) ∧
        ∀ e, compile pattern flags budget properties = .error (.malformed e) → answer = .error e := by
  obtain ⟨u, answer, h⟩ := Pattern.exists_usage pattern flags properties
  refine ⟨u, answer, fun budget => (h budget).1, fun budget => (h budget).2, fun budget => ?_⟩
  obtain ⟨hfits, hexceeds⟩ := h budget.clamp
  by_cases hu : u.FitsIn budget.clamp
  · cases answer with
    | error e =>
      have hcompile : compile pattern flags budget properties = .error (.malformed e) :=
        compile_of_parse_error (hfits hu)
      refine ⟨fun b hb => ?_, fun e' he' _ => ?_, fun e' he' => ?_⟩
      · cases hcompile.symm.trans hb
      · cases he'
        exact hcompile
      · cases hcompile.symm.trans he'
        rfl
    | ok t =>
      exact ⟨fun _ _ => .inl ⟨t, rfl⟩, nofun, fun e he =>
        absurd he (compile_of_parse_ok (hfits hu) e)⟩
  · obtain ⟨l, hl⟩ := hexceeds hu
    have hcompile := compile_of_parse_error hl
    refine ⟨fun b hb => .inr ⟨hu, l, ?_⟩, fun _ _ hu' => absurd hu' hu, fun e he => ?_⟩
    · cases hcompile.symm.trans hb
      rfl
    · cases hcompile.symm.trans he

/-- The number of repetitions is looked at before it is known that there is something to repeat. -/
theorem compile_bailout_of_malformed :
    compile "^\x7b41\x7d" {} {} Property.standard =
        .error (.bailout (Stage.parse.exceeded .countedRepetition)) ∧
      Pattern.parse "^\x7b41\x7d" {} { maxCountedRepetition := 41 } Property.standard =
        .error (.malformed ⟨1, .nothingToRepeat⟩) ∧
      ∀ budget t, Pattern.parse "^\x7b41\x7d" {} budget Property.standard ≠ .ok t := by
  have hmalformed : Pattern.parse "^\x7b41\x7d" {} { maxCountedRepetition := 41 } Property.standard =
      .error (.malformed ⟨1, .nothingToRepeat⟩) := eq_error (by decide +kernel)
  refine ⟨eq_error (by decide +kernel), hmalformed, fun budget t ht => ?_⟩
  obtain ⟨u, answer, h⟩ := Pattern.exists_usage "^\x7b41\x7d" {} Property.standard
  have hanswer : answer = .error ⟨1, .nothingToRepeat⟩ := by
    obtain ⟨hfits, hexceeds⟩ := h { maxCountedRepetition := 41 }
    by_cases hu : u.FitsIn { maxCountedRepetition := 41 }
    · have := (hfits hu).symm.trans hmalformed
      cases answer with
      | ok t => cases this
      | error e =>
        cases this
        rfl
    · obtain ⟨l, hl⟩ := hexceeds hu
      cases hl.symm.trans hmalformed
  obtain ⟨hfits, hexceeds⟩ := h budget
  by_cases hu : u.FitsIn budget
  · rw [hfits hu, hanswer] at ht
    cases ht
  · obtain ⟨l, hl⟩ := hexceeds hu
    cases hl.symm.trans ht

end PatternAutomata
