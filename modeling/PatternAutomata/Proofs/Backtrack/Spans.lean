import PatternAutomata.Proofs.Backtrack.Journal
import PatternAutomata.Proofs.Pattern.Numbering

/-!
# Spans of capture groups

What is written on a way through a node sets both entries of a capture group or neither, and groups
inside each other to spans inside each other. For what is set when a term begins is either reset
before it is set again, or belongs to captures that come earlier in the pattern.
-/

namespace PatternAutomata

/-! ## Lists of writes -/

/-- The last writes to the entries of group `g` make its span that from `s` to `e`. -/
structure Spans (ws : List Write) (g s e : Nat) : Prop where
  start : lastWrite (2 * g) ws = some ⟨.start g, s⟩
  stop : lastWrite (2 * g + 1) ws = some ⟨.stop g, e⟩

/-- The writes leave both entries of group `g` alone, reset both, or make them a span. -/
inductive Paired (ws : List Write) (g : Nat) : Prop
  | untouched (hstart : lastWrite (2 * g) ws = none) (hstop : lastWrite (2 * g + 1) ws = none)
  | reset {w w' : Write} (hstart : lastWrite (2 * g) ws = some w)
    (hstop : lastWrite (2 * g + 1) ws = some w') (hw : w.value = none) (hw' : w'.value = none)
  | span {s e : Nat} (h : Spans ws g s e) (hle : s ≤ e)

section Writes

variable {ws ws' : List Write} {g s e : Nat}

theorem Spans.congr (hstart : lastWrite (2 * g) ws' = lastWrite (2 * g) ws)
    (hstop : lastWrite (2 * g + 1) ws' = lastWrite (2 * g + 1) ws) (h : Spans ws g s e) :
    Spans ws' g s e := ⟨hstart.trans h.start, hstop.trans h.stop⟩

theorem Paired.congr (hstart : lastWrite (2 * g) ws' = lastWrite (2 * g) ws)
    (hstop : lastWrite (2 * g + 1) ws' = lastWrite (2 * g + 1) ws) (h : Paired ws g) :
    Paired ws' g := by
  cases h with
  | untouched h1 h2 => exact .untouched (hstart.trans h1) (hstop.trans h2)
  | reset h1 h2 hw hw' => exact .reset (hstart.trans h1) (hstop.trans h2) hw hw'
  | span h hle => exact .span (h.congr hstart hstop) hle

theorem Paired.append (h' : Paired ws' g) (h : Paired ws g) : Paired (ws' ++ ws) g := by
  cases h' with
  | untouched h1 h2 =>
    refine h.congr ?_ ?_
    · rw [lastWrite_append, h1, Option.none_or]
    · rw [lastWrite_append, h2, Option.none_or]
  | reset h1 h2 hw hw' =>
    refine .reset ?_ ?_ hw hw'
    · rw [lastWrite_append, h1, Option.some_or]
    · rw [lastWrite_append, h2, Option.some_or]
  | span h' hle =>
    refine .span ⟨?_, ?_⟩ hle
    · rw [lastWrite_append, h'.start, Option.some_or]
    · rw [lastWrite_append, h'.stop, Option.some_or]

/-- A span is made by the later writes, or by the earlier ones if the later ones leave it alone. -/
theorem Spans.of_append (h' : Paired ws' g) (h : Spans (ws' ++ ws) g s e) :
    Spans ws' g s e ∨ lastWrite (2 * g) ws' = none ∧ Spans ws g s e := by
  obtain ⟨hstart, hstop⟩ := h
  rw [lastWrite_append] at hstart hstop
  cases h' with
  | untouched h1 h2 =>
    rw [h1, Option.none_or] at hstart
    rw [h2, Option.none_or] at hstop
    exact .inr ⟨h1, hstart, hstop⟩
  | reset h1 h2 hw hw' =>
    rw [h1, Option.some_or] at hstart
    cases hstart
    cases hw
  | span h' =>
    rw [h'.start, Option.some_or] at hstart
    rw [h'.stop, Option.some_or] at hstop
    cases hstart
    cases hstop
    exact .inl h'

theorem Spans.start_mem (h : Spans ws g s e) : ⟨.start g, s⟩ ∈ ws := (mem_of_lastWrite h.start).1

theorem Spans.stop_mem (h : Spans ws g s e) : ⟨.stop g, e⟩ ∈ ws := (mem_of_lastWrite h.stop).1

/-! ### Resets -/

theorem lastWrite_reset {lo hi p i : Nat} (h : lo ≤ i / 2 ∧ i / 2 < hi) :
    lastWrite i [⟨.reset lo hi, p⟩] = some ⟨.reset lo hi, p⟩ := by
  rw [lastWrite_cons, if_pos (by simpa [Write.touches, CaptureOp.touches] using h)]

theorem lastWrite_reset_outside {lo hi p i : Nat} (h : ¬(lo ≤ i / 2 ∧ i / 2 < hi)) :
    lastWrite i [⟨.reset lo hi, p⟩] = none := by
  rw [lastWrite_cons, if_neg (by simpa [Write.touches, CaptureOp.touches] using h), lastWrite_nil]

theorem paired_reset (lo hi p g : Nat) : Paired [⟨.reset lo hi, p⟩] g := by
  by_cases hg : lo ≤ g ∧ g < hi
  · exact .reset (lastWrite_reset (i := 2 * g) (by omega))
      (lastWrite_reset (i := 2 * g + 1) (by omega)) rfl rfl
  · exact .untouched (lastWrite_reset_outside (i := 2 * g) (by omega))
      (lastWrite_reset_outside (i := 2 * g + 1) (by omega))

/-! ### Captures -/

theorem lastWrite_capture {n p p' i : Nat} (h : i / 2 ≠ n) :
    lastWrite i (⟨.stop n, p'⟩ :: (ws ++ [⟨.start n, p⟩])) = lastWrite i ws := by
  have hstop : i ≠ 2 * n + 1 := by omega
  have hstart : i ≠ 2 * n := by omega
  rw [lastWrite_cons, if_neg (by simpa [Write.touches, CaptureOp.touches] using hstop),
    lastWrite_append, lastWrite_cons,
    if_neg (by simpa [Write.touches, CaptureOp.touches] using hstart), lastWrite_nil,
    Option.or_none]

/-- A group spans what is matched between its ends, if nothing there sets it. -/
theorem spans_capture {n p p' : Nat} (h : lastWrite (2 * n) ws = none) :
    Spans (⟨.stop n, p'⟩ :: (ws ++ [⟨.start n, p⟩])) n p p' where
  start := by
    rw [lastWrite_cons, if_neg (by simp [Write.touches, CaptureOp.touches]), lastWrite_append, h,
      Option.none_or, lastWrite_cons, if_pos (by simp [Write.touches, CaptureOp.touches])]
  stop := by rw [lastWrite_cons, if_pos (by simp [Write.touches, CaptureOp.touches])]

end Writes

/-- After these writes it does not matter whether the captures from `lo` to before `hi` were set: all
entries that they touch come later, or they touch all entries of those. -/
def Renews (lo hi : Nat) (ws : List Write) : Prop :=
  (∀ w ∈ ws, ∀ i, w.touches i = true → hi ≤ i / 2) ∨
    ∀ i, lo ≤ i / 2 → i / 2 < hi → lastWrite i ws ≠ none

theorem renews_nil (lo hi : Nat) : Renews lo hi [] := .inl nofun

theorem Renews.append {lo hi : Nat} {ws ws' : List Write} (h' : Renews lo hi ws')
    (h : Renews lo hi ws) : Renews lo hi (ws' ++ ws) := by
  have hsome : ∀ i, lastWrite i ws' ≠ none ∨ lastWrite i ws ≠ none →
      lastWrite i (ws' ++ ws) ≠ none := by
    intro i hi hnone
    obtain ⟨h1, h2⟩ := Option.or_eq_none_iff.mp ((lastWrite_append ..).symm.trans hnone)
    exact hi.elim (· h1) (· h2)
  rcases h' with h' | h'
  · rcases h with h | h
    · refine .inl fun w hw => ?_
      rcases List.mem_append.mp hw with hw | hw
      · exact h' w hw
      · exact h w hw
    · exact .inr fun i hlo hhi => hsome i (.inr (h i hlo hhi))
  · exact .inr fun i hlo hhi => hsome i (.inl (h' i hlo hhi))

/-- What is written on a way through a node with the captures from `lo` to before `hi`, between the
positions `first` and `last`. The captures inside group `g` end before `ends g`. -/
structure Settled (ends : Nat → Nat) (lo hi first last : Nat) (ws : List Write) : Prop where
  position : ∀ w ∈ ws, first ≤ w.position ∧ w.position ≤ last
  touches : ∀ w ∈ ws, ∀ i, w.touches i = true → lo ≤ i / 2 ∧ i / 2 < hi
  inside : ∀ g p, ⟨.start g, p⟩ ∈ ws → ends g ≤ hi
  paired : ∀ g, Paired ws g
  nested : ∀ o i s e s' e', o < i → i < ends o → Spans ws o s e → Spans ws i s' e' →
    s ≤ s' ∧ e' ≤ e

namespace Settled

variable {ends : Nat → Nat} {lo hi a b n p q p' : Nat} {ws ws' : List Write}

theorem nil : Settled ends lo hi p p' [] where
  position := nofun
  touches := nofun
  inside := nofun
  paired _ := .untouched rfl rfl
  nested _ _ _ _ _ _ _ _ h := absurd h.start nofun

theorem mono (h : Settled ends a b q p' ws) (hlo : lo ≤ a) (hhi : b ≤ hi) (hp : p ≤ q)
    {last : Nat} (hlast : p' ≤ last) : Settled ends lo hi p last ws where
  position w hw := ⟨Nat.le_trans hp (h.position w hw).1, Nat.le_trans (h.position w hw).2 hlast⟩
  touches w hw i hi := ⟨Nat.le_trans hlo (h.touches w hw i hi).1,
    Nat.lt_of_lt_of_le (h.touches w hw i hi).2 hhi⟩
  inside g p hg := Nat.le_trans (h.inside g p hg) hhi
  paired := h.paired
  nested := h.nested

theorem lastWrite_outside (h : Settled ends lo hi p p' ws) {i : Nat}
    (hi : ¬(lo ≤ i / 2 ∧ i / 2 < hi)) : lastWrite i ws = none :=
  lastWrite_eq_none.mpr fun w hw => Bool.eq_false_iff.mpr fun ht => hi (h.touches w hw i ht)

theorem bounds_of_spans (h : Settled ends lo hi p p' ws) {g s e : Nat} (hg : Spans ws g s e) :
    lo ≤ g ∧ g < hi ∧ p ≤ s ∧ e ≤ p' := by
  obtain ⟨hmem, htouches⟩ := mem_of_lastWrite hg.start
  obtain ⟨h1, h2⟩ := h.touches _ hmem _ htouches
  have h3 := (h.position _ hmem).1
  have h4 := (h.position _ hg.stop_mem).2
  simp only at h3 h4
  omega

/-- One way after another. -/
theorem append (h : Settled ends a b p q ws) (h' : Settled ends lo hi q p' ws') (hpq : p ≤ q)
    (hqp : q ≤ p') (hlo : lo ≤ a) (hhi : b ≤ hi) (hrenews : Renews a b ws') :
    Settled ends lo hi p p' (ws' ++ ws) where
  position w hw := by
    rcases List.mem_append.mp hw with hw | hw
    · exact ⟨Nat.le_trans hpq (h'.position w hw).1, (h'.position w hw).2⟩
    · exact ⟨(h.position w hw).1, Nat.le_trans (h.position w hw).2 hqp⟩
  touches w hw i hi := by
    rcases List.mem_append.mp hw with hw | hw
    · exact h'.touches w hw i hi
    · exact ⟨Nat.le_trans hlo (h.touches w hw i hi).1,
        Nat.lt_of_lt_of_le (h.touches w hw i hi).2 hhi⟩
  inside g p hg := by
    rcases List.mem_append.mp hg with hg | hg
    · exact h'.inside g p hg
    · exact Nat.le_trans (h.inside g p hg) hhi
  paired g := (h'.paired g).append (h.paired g)
  nested o i s e s' e' hoi hends ho hi := by
    rcases ho.of_append (h'.paired o) with ho | ⟨honone, ho⟩ <;>
      rcases hi.of_append (h'.paired i) with hi | ⟨hinone, hi⟩
    · exact h'.nested o i s e s' e' hoi hends ho hi
    · -- The inner group would have been reset, or come after the outer one.
      exfalso
      obtain ⟨ha, hb, -⟩ := h.bounds_of_spans hi
      rcases hrenews with hlater | htouched
      · obtain ⟨hmem, htouches⟩ := mem_of_lastWrite ho.start
        have := hlater _ hmem _ htouches
        omega
      · exact htouched (2 * i) (by omega) (by omega) hinone
    · exfalso
      obtain ⟨ha, hb, -⟩ := h.bounds_of_spans ho
      rcases hrenews with hlater | htouched
      · obtain ⟨hmem, htouches⟩ := mem_of_lastWrite hi.start
        have := hlater _ hmem _ htouches
        have := h.inside _ _ ho.start_mem
        omega
      · exact htouched (2 * o) (by omega) (by omega) honone
    · exact h.nested o i s e s' e' hoi hends ho hi

/-- An iteration of a quantifier. -/
theorem iteration (h : Settled ends lo hi p p' ws) (hp : p ≤ p') :
    Settled ends lo hi p p' (ws ++ [⟨.reset lo hi, p⟩]) ∧
      ∀ i, lo ≤ i / 2 → i / 2 < hi → lastWrite i (ws ++ [⟨.reset lo hi, p⟩]) ≠ none := by
  have hspans : ∀ {g s e}, Spans (ws ++ [⟨.reset lo hi, p⟩]) g s e → Spans ws g s e := by
    intro g s e hg
    refine (hg.of_append (h.paired g)).resolve_right ?_
    rintro ⟨-, hg⟩
    cases List.mem_singleton.mp hg.start_mem
  refine ⟨⟨fun w hw => ?_, fun w hw i hi' => ?_, fun g q hg => ?_,
    fun g => (h.paired g).append (paired_reset lo hi p g), fun o i s e s' e' hoi hends ho hi' =>
      h.nested o i s e s' e' hoi hends (hspans ho) (hspans hi')⟩, fun i h1 h2 hnone => ?_⟩
  · rcases List.mem_append.mp hw with hw | hw
    · exact h.position w hw
    · rw [List.mem_singleton.mp hw]
      exact ⟨Nat.le_refl _, hp⟩
  · rcases List.mem_append.mp hw with hw | hw
    · exact h.touches w hw i hi'
    · rw [List.mem_singleton.mp hw] at hi'
      simpa [Write.touches, CaptureOp.touches] using hi'
  · rcases List.mem_append.mp hg with hg | hg
    · exact h.inside g q hg
    · cases List.mem_singleton.mp hg
  · rw [lastWrite_append, lastWrite_reset ⟨h1, h2⟩] at hnone
    cases (Option.or_eq_none_iff.mp hnone).2

/-- A capture group. -/
theorem capture (h : Settled ends (n + 1) b p p' ws) (hp : p ≤ p') (hlo : lo ≤ n) (hn : n < hi)
    (hb : b ≤ hi) (hends : ends n = b) :
    Settled ends lo hi p p' (⟨.stop n, p'⟩ :: (ws ++ [⟨.start n, p⟩])) ∧
      Spans (⟨.stop n, p'⟩ :: (ws ++ [⟨.start n, p⟩])) n p p' := by
  have hown : Spans (⟨.stop n, p'⟩ :: (ws ++ [⟨.start n, p⟩])) n p p' :=
    spans_capture (h.lastWrite_outside (by omega))
  have hspans : ∀ {g s e}, g ≠ n → Spans (⟨.stop n, p'⟩ :: (ws ++ [⟨.start n, p⟩])) g s e →
      Spans ws g s e := fun hg hs =>
    hs.congr (lastWrite_capture (by omega)).symm (lastWrite_capture (by omega)).symm
  have hmem : ∀ w ∈ (⟨.stop n, p'⟩ :: (ws ++ [⟨.start n, p⟩]) : List Write),
      w = ⟨.stop n, p'⟩ ∨ w ∈ ws ∨ w = ⟨.start n, p⟩ := by simp
  refine ⟨⟨fun w hw => ?_, fun w hw i hi' => ?_, fun g q hg => ?_, fun g => ?_,
    fun o i s e s' e' hoi hi' ho hs => ?_⟩, hown⟩
  · rcases hmem w hw with rfl | hw | rfl
    · exact ⟨hp, Nat.le_refl _⟩
    · exact h.position w hw
    · exact ⟨Nat.le_refl _, hp⟩
  · rcases hmem w hw with rfl | hw | rfl
    · have hi' : i = 2 * n + 1 := by simpa [Write.touches, CaptureOp.touches] using hi'
      omega
    · have := h.touches w hw i hi'
      omega
    · have hi' : i = 2 * n := by simpa [Write.touches, CaptureOp.touches] using hi'
      omega
  · rcases hmem _ hg with hg | hg | hg
    · cases hg
    · exact Nat.le_trans (h.inside g q hg) hb
    · cases hg
      exact hends ▸ hb
  · by_cases hg : g = n
    · obtain rfl := hg
      exact .span hown hp
    · exact (h.paired g).congr (lastWrite_capture (by omega)) (lastWrite_capture (by omega))
  · by_cases hin : i = n
    · have := (h.bounds_of_spans (hspans (by omega) ho)).1
      omega
    · have hs := hspans hin hs
      by_cases hon : o = n
      · obtain ⟨-, -, h1, h2⟩ := h.bounds_of_spans hs
        subst hon
        cases Option.some.inj (ho.start.symm.trans hown.start)
        cases Option.some.inj (ho.stop.symm.trans hown.stop)
        exact ⟨h1, h2⟩
      · exact h.nested o i s e s' e' hoi hi' (hspans hon ho) hs

end Settled

/-! ## Ways -/

theorem NodeKind.fitsIn_of_isQuantifier {g : Group} (h : g.isQuantifier = true) :
    (NodeKind.group g).FitsIn g.innerStart g.innerEnd :=
  ⟨⟨Nat.le_refl _, Nat.le_refl _⟩, fun n hn => by
    rw [Group.number?_of_isQuantifier h] at hn
    cases hn⟩

theorem Journal.after_after (j j' before : Journal) :
    j'.after (j.after before) = (j'.after j).after before := by
  simp only [after, List.append_assoc]

namespace Tree

variable {t : Tree} {x : Subject} {ends : Nat → Nat} {id : NodeId} {g : Group}
  {s s' : Spot Journal} {j : Journal} {lo hi : Nat}
  {next : NodeId → Spot Journal → List (Spot Journal)}

/-- A way from one spot to another adds `j` to the journal. -/
structure Adds (x : Subject) (ends : Nat → Nat) (lo hi : Nat) (s s' : Spot Journal) (j : Journal) :
    Prop where
  memory : s'.memory = j.after s.memory
  le : s.position ≤ s'.position
  le_length : s'.position ≤ x.text.length
  own : Settled ends lo hi s.position s'.position j.own
  inner : ∀ ws ∈ j.inner, ∃ lo hi, Settled ends lo hi s.position x.text.length ws

namespace Adds

theorem refl (hs : s.position ≤ x.text.length) : Adds x ends lo hi s s {} :=
  ⟨rfl, Nat.le_refl _, hs, .nil, nofun⟩

theorem mono {a b : Nat} (h : Adds x ends a b s s' j) (hlo : lo ≤ a) (hhi : b ≤ hi) :
    Adds x ends lo hi s s' j :=
  ⟨h.memory, h.le, h.le_length, h.own.mono hlo hhi (Nat.le_refl _) (Nat.le_refl _), h.inner⟩

theorem trans {s'' : Spot Journal} {j' : Journal} {a b : Nat} (h : Adds x ends a b s s' j)
    (h' : Adds x ends lo hi s' s'' j') (hlo : lo ≤ a) (hhi : b ≤ hi)
    (hrenews : Renews a b j'.own) : Adds x ends lo hi s s'' (j'.after j) where
  memory := by rw [h'.memory, h.memory, Journal.after_after]
  le := Nat.le_trans h.le h'.le
  le_length := h'.le_length
  own := h.own.append h'.own h.le h'.le hlo hhi hrenews
  inner ws hws := by
    rcases List.mem_append.mp hws with hws | hws
    · obtain ⟨lo, hi, hsettled⟩ := h'.inner ws hws
      exact ⟨lo, hi, hsettled.mono (Nat.le_refl _) (Nat.le_refl _) h.le (Nat.le_refl _)⟩
    · exact h.inner ws hws

end Adds

/-- All entries of the captures inside the group are touched. -/
def Touched (g : Group) (ws : List Write) : Prop :=
  ∀ i, g.innerStart ≤ i / 2 → i / 2 < g.innerEnd → lastWrite i ws ≠ none

/-- What a way through a node of kind `k` adds: it has the captures that fit there, a quantifier has
touched all of its captures if it has iterated, and a capture group spans the way. -/
structure Tidy (x : Subject) (ends : Nat → Nat) (k : NodeKind) (s s' : Spot Journal) (j : Journal) :
    Prop where
  adds : ∀ lo hi, k.FitsIn lo hi → Adds x ends lo hi s s' j
  touched : ∀ g, k = .group g → g.isQuantifier = true → j.own = [] ∨ Touched g j.own
  spans : ∀ g n, k = .group g → g.number? = some n → Spans j.own n s.position s'.position

theorem Tidy.renews (h : Tidy x ends (t.kind id) s s' j) (hid : MayFollow t.kind lo hi id) :
    Renews lo hi j.own := by
  rcases hid with ⟨m, hwithin⟩ | ⟨g, hg, hq, hstart, hend⟩
  · exact .inl fun w hw i hi' => ((h.adds hi m hwithin.fitsIn).own.touches w hw i hi').1
  · rcases h.touched g hg hq with hnil | htouched
    · rw [hnil]
      exact renews_nil lo hi
    · exact .inr fun i h1 h2 => htouched i (by omega) (by omega)

theorem tidy_leaf {k : NodeKind} (hk : ∀ g, k ≠ .group g) (h : ∀ lo hi, Adds x ends lo hi s s' j) :
    Tidy x ends k s s' j :=
  ⟨fun lo hi _ => h lo hi, fun g hg => absurd hg (hk g), fun g _ hg => absurd hg (hk g)⟩

/-- Terms in order, one after the other. -/
theorem adds_inTurn {ids : List NodeId} (hwithin : ∀ c ∈ ids, Within t.kind lo hi c)
    (horder : ids.Pairwise (InOrder t.kind))
    (hnext : ∀ c ∈ ids, ∀ s s', s.position ≤ x.text.length → s' ∈ next c s →
      ∃ j, Tidy x ends (t.kind c) s s' j)
    (hs : s.position ≤ x.text.length) (h : s' ∈ inTurn next ids s) :
    ∃ j, Adds x ends lo hi s s' j ∧
      ∀ a b, (∀ c ∈ ids, MayFollow t.kind a b c) → Renews a b j.own := by
  induction ids generalizing s with
  | nil =>
    obtain rfl := List.mem_singleton.mp h
    exact ⟨{}, .refl hs, fun a b _ => renews_nil a b⟩
  | cons c ids ih =>
    obtain ⟨s1, h1, h2⟩ := List.mem_flatMap.mp h
    obtain ⟨hfirst, hothers⟩ := List.pairwise_cons.mp horder
    obtain ⟨j1, hj1⟩ := hnext c List.mem_cons_self s s1 hs h1
    obtain ⟨a, b, hlo, hhi, hc, hfollow⟩ :=
      exists_within_mayFollow (hwithin c List.mem_cons_self) hfirst
    have hadds := hj1.adds a b hc.fitsIn
    obtain ⟨j2, hj2, hrenews⟩ := ih (fun d hd => hwithin d (List.mem_cons_of_mem _ hd)) hothers
      (fun d hd => hnext d (List.mem_cons_of_mem _ hd)) hadds.le_length h2
    refine ⟨j2.after j1, hadds.trans hj2 hlo hhi (hrenews a b hfollow), fun a' b' hall => ?_⟩
    obtain ⟨hhead, htail⟩ := List.forall_mem_cons.mp hall
    exact (hrenews a' b' htail).append (hj1.renews hhead)

/-! ### Groups -/

section Group

theorem tidy_plain (hq : g.isQuantifier = false) (hn : g.number? = none)
    (hbody : Adds x ends g.innerStart g.innerEnd (g.enter Journal.recorder s) s' j) :
    Tidy x ends (.group g) s (g.exit Journal.recorder s') j := by
  have henter : g.enter Journal.recorder s = s := by simp [Group.enter, hq, hn]
  have hexit : g.exit Journal.recorder s' = s' := by simp [Group.exit, hn]
  rw [henter] at hbody
  rw [hexit]
  refine ⟨fun lo hi hfits => hbody.mono hfits.1.1 hfits.1.2, ?_, ?_⟩
  · rintro _ ⟨⟩ hq'
    rw [hq] at hq'
    cases hq'
  · rintro _ n ⟨⟩ hn'
    rw [hn] at hn'
    cases hn'

/-- What a quantifier adds. -/
theorem tidy_quantifier (hq : g.isQuantifier = true)
    (hadds : Adds x ends g.innerStart g.innerEnd s s' j) (hj : j.own = [] ∨ Touched g j.own) :
    Tidy x ends (.group g) s s' j := by
  refine ⟨fun lo hi hfits => hadds.mono hfits.1.1 hfits.1.2, ?_, ?_⟩
  · rintro _ ⟨⟩ -
    exact hj
  · rintro _ n ⟨⟩ hn
    rw [Group.number?_of_isQuantifier hq] at hn
    cases hn

theorem tidy_iteration (hq : g.isQuantifier = true)
    (hbody : Adds x ends g.innerStart g.innerEnd (g.enter Journal.recorder s) s' j) :
    ∃ j', Tidy x ends (.group g) s (g.exit Journal.recorder s') j' ∧ Touched g j'.own := by
  have hn := Group.number?_of_isQuantifier hq
  have henter : g.enter Journal.recorder s =
      s.mark Journal.recorder (.reset g.innerStart g.innerEnd) := by simp [Group.enter, hq, hn]
  have hexit : g.exit Journal.recorder s' = s' := by simp [Group.exit, hn]
  rw [henter] at hbody
  rw [hexit]
  let w : Write := ⟨.reset g.innerStart g.innerEnd, s.position⟩
  obtain ⟨hown, htouched⟩ := hbody.own.iteration hbody.le
  have hmemory : s'.memory = (j.after ⟨[w], [], [w]⟩).after s.memory := by
    rw [hbody.memory, ← Journal.after_after]
    rfl
  have hadds : Adds x ends g.innerStart g.innerEnd s s' (j.after ⟨[w], [], [w]⟩) :=
    ⟨hmemory, hbody.le, hbody.le_length, hown, fun ws hws =>
      hbody.inner ws (by simpa [Journal.after] using hws)⟩
  exact ⟨_, tidy_quantifier hq hadds (.inr htouched), htouched⟩

/-- More iterations reset what the first one has written, if there are any. -/
theorem Tidy.again {s1 : Spot Journal} {j' : Journal} (hq : g.isQuantifier = true)
    (hj : Tidy x ends (.group g) s s1 j) (htouched : Touched g j.own)
    (hj' : Tidy x ends (.group g) s1 s' j') : Tidy x ends (.group g) s s' (j'.after j) := by
  have hfits := NodeKind.fitsIn_of_isQuantifier hq
  have hrenews : Renews g.innerStart g.innerEnd j'.own := by
    rcases hj'.touched g rfl hq with hnil | htouched'
    · rw [hnil]
      exact renews_nil _ _
    · exact .inr htouched'
  refine tidy_quantifier hq ((hj.adds _ _ hfits).trans (hj'.adds _ _ hfits) (Nat.le_refl _)
    (Nat.le_refl _) hrenews) (.inr fun i h1 h2 hnone => htouched i h1 h2 ?_)
  exact (Option.or_eq_none_iff.mp ((lastWrite_append ..).symm.trans hnone)).2

theorem tidy_capture {n : Nat} (hq : g.isQuantifier = false) (hn : g.number? = some n)
    (hstart : g.innerStart = n + 1) (hend : g.innerEnd = ends n)
    (hbody : Adds x ends g.innerStart g.innerEnd (g.enter Journal.recorder s) s' j) :
    ∃ j', Tidy x ends (.group g) s (g.exit Journal.recorder s') j' := by
  have henter : g.enter Journal.recorder s = s.mark Journal.recorder (.start n) := by
    simp [Group.enter, hq, hn]
  have hexit : g.exit Journal.recorder s' = s'.mark Journal.recorder (.stop n) := by
    simp [Group.exit, hn]
  rw [henter, hstart] at hbody
  rw [hexit]
  let w : Write := ⟨.start n, s.position⟩
  let w' : Write := ⟨.stop n, s'.position⟩
  have hsettled : ∀ lo hi, lo ≤ n → n < hi → g.innerEnd ≤ hi →
      Settled ends lo hi s.position s'.position (w' :: (j.own ++ [w])) ∧
        Spans (w' :: (j.own ++ [w])) n s.position s'.position :=
    fun lo hi hlo hn hhi => hbody.own.capture hbody.le hlo hn hhi hend.symm
  have hmemory : (s'.mark Journal.recorder (.stop n)).memory =
      Journal.after ⟨w' :: (j.own ++ [w]), j.inner, w' :: (j.log ++ [w])⟩ s.memory := by
    have h := hbody.memory
    simp only [Spot.mark, Journal.recorder, Journal.after] at h ⊢
    rw [h]
    simp [w, w']
  refine ⟨⟨w' :: (j.own ++ [w]), j.inner, w' :: (j.log ++ [w])⟩, fun lo hi hfits => ?_, ?_, ?_⟩
  · obtain ⟨hlo, hhi⟩ := hfits.2 n hn
    exact ⟨hmemory, hbody.le, hbody.le_length, (hsettled lo hi hlo hhi hfits.1.2).1, hbody.inner⟩
  · rintro _ ⟨⟩ hq'
    rw [hq] at hq'
    cases hq'
  · rintro _ m ⟨⟩ hm
    cases hn.symm.trans hm
    exact (hsettled 0 (max (n + 1) g.innerEnd) (Nat.zero_le _) (by omega) (by omega)).2

theorem exists_tidy_exit
    (hnumber : ∀ n, g.number? = some n → g.innerStart = n + 1 ∧ g.innerEnd = ends n)
    (hbody : Adds x ends g.innerStart g.innerEnd (g.enter Journal.recorder s) s' j) :
    ∃ j', Tidy x ends (.group g) s (g.exit Journal.recorder s') j' ∧
      (g.isQuantifier = true → Touched g j'.own) := by
  cases hrole : g.role with
  | plain =>
    have hq : g.isQuantifier = false := by simp [Group.isQuantifier, hrole]
    exact ⟨j, tidy_plain hq (by simp [Group.number?, hrole]) hbody, fun h => by simp [hq] at h⟩
  | capture n =>
    have hq : g.isQuantifier = false := by simp [Group.isQuantifier, hrole]
    have hn : g.number? = some n := by simp [Group.number?, hrole]
    obtain ⟨j', hj'⟩ := tidy_capture hq hn (hnumber n hn).1 (hnumber n hn).2 hbody
    exact ⟨j', hj', fun h => by simp [hq] at h⟩
  | _ =>
    obtain ⟨j', hj', htouched⟩ := tidy_iteration (by simp [Group.isQuantifier, hrole]) hbody
    exact ⟨j', hj', fun _ => htouched⟩

end Group

section Ways

variable (h : t.WellFormed) (hnumber : ∀ id g n, t.kind id = .group g → g.number? = some n →
  g.innerStart = n + 1 ∧ g.innerEnd = ends n)
include h hnumber

/-- A way through the terms of an alternative, with what is marked before and after it. -/
theorem exists_tidy_alternative (hg : t.kind id = .group g)
    (hnext : ∀ c < id, ∀ s s', s.position ≤ x.text.length → s' ∈ t.ways x Journal.recorder c s →
      ∃ j, Tidy x ends (t.kind c) s s' j)
    {a : NodeId} (ha : a ∈ g.alternatives) (hs : s.position ≤ x.text.length)
    (hs' : s' ∈ inTurn (t.ways x Journal.recorder) (t.terms a) (g.enter Journal.recorder s)) :
    ∃ j, Tidy x ends (.group g) s (g.exit Journal.recorder s') j ∧
      (g.isQuantifier = true → Touched g j.own) := by
  have hshape := h.shaped_of_kind hg
  obtain ⟨terms, hterms⟩ := hshape.1 a ha
  have hwithin : ∀ c ∈ terms, Within t.kind g.innerStart g.innerEnd c := fun c hc =>
    (hshape.2.2 a ha).child (by rw [hterms]; exact hc)
  have horder := h.shaped_of_kind hterms
  rw [show t.terms a = terms by rw [Tree.terms, hterms]] at hs'
  obtain ⟨j, hj, -⟩ := adds_inTurn hwithin horder.2
    (fun c hc => hnext c (h.term_lt hg ha (by rw [Tree.terms, hterms]; exact hc)))
    (by simpa using hs) hs'
  exact exists_tidy_exit (fun n hn => hnumber id g n hg hn) hj

theorem exists_tidy_groupWays (hg : t.kind id = .group g)
    (hnext : ∀ c < id, ∀ s s', s.position ≤ x.text.length → s' ∈ t.ways x Journal.recorder c s →
      ∃ j, Tidy x ends (t.kind c) s s' j)
    (count : Nat) (hs : s.position ≤ x.text.length)
    (hs' : s' ∈ groupWays t Journal.recorder g (t.ways x Journal.recorder) count s) :
    ∃ j, Tidy x ends (.group g) s s' j := by
  induction count generalizing s with
  | zero => cases hs'
  | succ count ih =>
    obtain ⟨a, ha, hs'⟩ := List.mem_flatMap.mp hs'
    split at hs'
    · rename_i hempty
      split at hs'
      · rename_i hq
        obtain rfl := List.mem_singleton.mp hs'
        exact ⟨{}, tidy_quantifier hq (.refl hs) (.inl rfl)⟩
      · obtain rfl := List.mem_singleton.mp hs'
        obtain ⟨j, hj, -⟩ := exists_tidy_alternative h hnumber hg hnext ha hs
          (show g.enter Journal.recorder s ∈ _ by rw [hempty]; exact List.mem_singleton_self _)
        exact ⟨j, hj⟩
    · rename_i first others hterms
      have hiteration : ∀ s1 ∈ iteration t Journal.recorder g (t.ways x Journal.recorder) first
          others s, ∃ j, Tidy x ends (.group g) s s1 j ∧
            (g.isQuantifier = true → Touched g j.own) := by
        intro s1 hs1
        obtain ⟨s2, hbegun, hs1⟩ := List.mem_flatMap.mp hs1
        obtain ⟨s3, hs3, rfl⟩ := List.mem_map.mp hs1
        refine exists_tidy_alternative h hnumber hg hnext ha hs ?_
        rw [hterms]
        exact List.mem_flatMap.mpr ⟨s2, (List.mem_filter.mp hbegun).1, hs3⟩
      dsimp only at hs'
      split at hs'
      · rename_i hloop
        have hq := Group.isQuantifier_of_isLoop hloop
        obtain ⟨s1, h1, h2⟩ := List.mem_flatMap.mp hs'
        obtain ⟨j, hj, htouched⟩ := hiteration s1 h1
        obtain ⟨j', hj'⟩ := ih (hj.adds _ _ (NodeKind.fitsIn_of_isQuantifier hq)).le_length h2
        exact ⟨_, hj.again hq (htouched hq) hj'⟩
      · obtain ⟨j, hj, -⟩ := hiteration s' hs'
        exact ⟨j, hj⟩

omit hnumber in
/-- A look-ahead adds what its body writes, beside the match itself. -/
theorem exists_tidy_lookWays {l : LookAround} (hl : t.kind id = .look l)
    (hnext : ∀ s s', s.position ≤ x.text.length → s' ∈ t.ways x Journal.recorder l.body s →
      ∃ j, Tidy x ends (t.kind l.body) s s' j)
    (hs : s.position ≤ x.text.length)
    (hs' : s' ∈ lookWays t x Journal.recorder id l (t.ways x Journal.recorder) s) :
    ∃ j, Tidy x ends (.look l) s s' j := by
  have hsame : Tidy x ends (.look l) s s {} := tidy_leaf nofun fun _ _ => .refl hs
  unfold lookWays at hs'
  split at hs'
  · split at hs'
    · rename_i s1 hs1
      split at hs'
      · cases hs'
      · obtain rfl := List.mem_singleton.mp hs'
        obtain ⟨⟨g, -, -, hwithin⟩, -⟩ := h.shaped_of_kind hl
        obtain ⟨j, hj⟩ := hnext s s1 hs (List.mem_of_mem_head? hs1)
        have hadds := hj.adds _ _ hwithin.fitsIn
        refine ⟨⟨[], j.own :: j.inner, j.log⟩, tidy_leaf nofun fun lo hi => ⟨?_, Nat.le_refl _, hs,
          .nil, fun ws hws => ?_⟩⟩
        · simp only [Journal.recorder, hadds.memory, Journal.after, List.length_append,
            Nat.add_sub_cancel, List.take_left, List.nil_append, List.cons_append]
        · rcases List.mem_cons.mp hws with rfl | hws
          · exact ⟨_, _, hadds.own.mono (Nat.le_refl _) (Nat.le_refl _) (Nat.le_refl _)
              hadds.le_length⟩
          · exact hadds.inner ws hws
    · split at hs'
      · obtain rfl := List.mem_singleton.mp hs'
        exact ⟨{}, hsame⟩
      · cases hs'
  · split at hs'
    · split at hs'
      · cases hs'
      · obtain rfl := List.mem_singleton.mp hs'
        exact ⟨{}, hsame⟩
    · cases hs'

/-- Every way through a node is tidy. -/
theorem exists_tidy (hs : s.position ≤ x.text.length)
    (hs' : s' ∈ t.ways x Journal.recorder id s) : ∃ j, Tidy x ends (t.kind id) s s' j := by
  induction id using Nat.strongRecOn generalizing s s' with
  | ind id ih =>
    have hahead := ahead_ways hs'
    cases hk : t.kind id with
    | charClass set =>
      rw [ways_charClass h hk] at hs'
      split at hs'
      · obtain rfl := List.mem_singleton.mp hs'
        refine ⟨{}, tidy_leaf nofun fun lo hi => ⟨rfl, hahead.le, ?_, .nil, nofun⟩⟩
        exact Nat.le_trans hahead.bounded (Nat.max_le.mpr ⟨hs, Nat.le_refl _⟩)
      · cases hs'
    | assertion a =>
      rw [ways_assertion h hk] at hs'
      split at hs'
      · obtain rfl := List.mem_singleton.mp hs'
        exact ⟨{}, tidy_leaf nofun fun lo hi => .refl hs⟩
      · cases hs'
    | look l =>
      rw [ways_look h hk] at hs'
      have hlt : l.body < id := h.body_lt hk
      exact exists_tidy_lookWays h hk (fun s s' => ih l.body hlt) hs hs'
    | group g =>
      rw [ways_groupWays h hk] at hs'
      exact exists_tidy_groupWays h hnumber hk (fun c hc s s' => ih c hc) _ hs hs'
    | backReference n =>
      rw [ways_backReference h hk] at hs'
      cases hs'
    | sequence terms =>
      rw [ways_sequence h hk] at hs'
      cases hs'
    | matchFound =>
      rw [ways_matchFound h hk] at hs'
      cases hs'

end Ways

end Tree

end PatternAutomata
