import Mathlib.Data.List.Forall2
import PatternAutomata.Proofs.Dfa.Views

/-!
# Constructions side by side

Two constructions with slots may number the states of the nondeterministic automaton differently,
since one of them begins with states that were discovered before. As long as both succeed, they
discover the same keys and boundaries in the same order, up to these numbers, and so they make the
same automaton.
-/

namespace PatternAutomata.Dfa

variable {n : Nfa}

/-- Threads with slots that have the same state. -/
structure SameThread (d e : Discovered n) (t t' : Thread) : Prop where
  plain : t.captures = #[] ∧ t'.captures = #[]
  state : ∃ s, d.states.state? t.state = some s ∧ e.states.state? t'.state = some s

/-- Keys with slots that stand for the same. -/
structure SameKey (d e : Discovered n) (k k' : Key) : Prop where
  plain : k.Plain ∧ k'.Plain
  view : ∃ v, d.view k = some v ∧ e.view k' = some v

/-- What was discovered is the same, but for the numbers of states. -/
structure Twins (d e : Discovered n) : Prop where
  size : d.keys.size = e.keys.size
  keys : ∀ i k k', d.keys.get? i = some k → e.keys.get? i = some k' → SameKey d e k k'
  boundaries : d.boundaries = e.boundaries
  tracer : d.tracer = none ∧ e.tracer = none

section Twins

variable {d d' e e' : Discovered n} {t t' : Thread} {k k' : Key}

theorem SameThread.mono (h : SameThread d e t t') (hd : d.Extends d') (he : e.Extends e') :
    SameThread d' e' t t' where
  plain := h.plain
  state :=
    let ⟨s, hs, hs'⟩ := h.state
    ⟨s, hd.states _ _ hs, he.states _ _ hs'⟩

theorem SameKey.mono (h : SameKey d e k k') (hd : d.Extends d') (he : e.Extends e') :
    SameKey d' e' k k' where
  plain := h.plain
  view :=
    let ⟨v, hv, hv'⟩ := h.view
    ⟨v, Discovered.view_mono hv hd, Discovered.view_mono hv' he⟩

theorem SameKey.symm (h : SameKey d e k k') : SameKey e d k' k where
  plain := h.plain.symm
  view :=
    let ⟨v, hv, hv'⟩ := h.view
    ⟨v, hv', hv⟩

/-- A thread has one number on either side. -/
theorem SameThread.state_eq_iff {u u' : Thread} (h : SameThread d e t t')
    (hu : SameThread d e u u') : t.state = u.state ↔ t'.state = u'.state := by
  obtain ⟨s, hs, hs'⟩ := h.state
  obtain ⟨r, hr, hr'⟩ := hu.state
  constructor
  · intro heq
    rw [heq, hr, Option.some.injEq] at hs
    exact Interner.get?_inj hs' (hs ▸ hr')
  · intro heq
    rw [heq, hr', Option.some.injEq] at hs'
    exact Interner.get?_inj hs (hs' ▸ hr)

theorem SameKey.search {ts ts' : List Thread} (h : List.Forall₂ (SameThread d e) ts ts')
    (injecting : Bool) (tracker : BitSet) :
    SameKey d e (.search ts injecting tracker) (.search ts' injecting tracker) := by
  have hparts : ((∀ t ∈ ts, t.captures = #[]) ∧ ∀ t ∈ ts', t.captures = #[]) ∧
      ∃ ss, d.HasStates ts ss ∧ e.HasStates ts' ss := by
    induction h with
    | nil => exact ⟨⟨nofun, nofun⟩, [], .nil, .nil⟩
    | cons ht _ ih =>
      obtain ⟨⟨hp, hp'⟩, ss, hs, hs'⟩ := ih
      obtain ⟨s, hts, hts'⟩ := ht.state
      exact ⟨⟨List.forall_mem_cons.mpr ⟨ht.plain.1, hp⟩, List.forall_mem_cons.mpr ⟨ht.plain.2, hp'⟩⟩,
        s :: ss, .cons hts hs, .cons hts' hs'⟩
  obtain ⟨hplain, ss, hs, hs'⟩ := hparts
  exact ⟨hplain, _, Discovered.view_search_iff.mpr ⟨ss, hs, rfl⟩,
    Discovered.view_search_iff.mpr ⟨ss, hs', rfl⟩⟩

theorem Twins.mono (h : Twins d e) (hd : d.Extends d') (he : e.Extends e')
    (hkeys : d'.keys = d.keys ∧ e'.keys = e.keys) (hboundaries : d'.boundaries = e'.boundaries)
    (htracer : d'.tracer = none ∧ e'.tracer = none) : Twins d' e' where
  size := by rw [hkeys.1, hkeys.2, h.size]
  keys i k k' hk hk' := (h.keys i k k' (hkeys.1 ▸ hk) (hkeys.2 ▸ hk')).mono hd he
  boundaries := hboundaries
  tracer := htracer

theorem Twins.symm (h : Twins d e) : Twins e d where
  size := h.size.symm
  keys i k k' hk hk' := (h.keys i k' k hk' hk).symm
  boundaries := h.boundaries.symm
  tracer := h.tracer.symm

theorem Twins.exists_key (h : Twins d e) {i : Nat} (hi : d.keys.get? i = some k) :
    ∃ k', e.keys.get? i = some k' ∧ SameKey d e k k' := by
  have hlt : i < e.keys.size := h.size ▸ Interner.lt_size hi
  have hi' : e.keys.get? i = some e.keys.items[i] := Array.getElem?_eq_getElem hlt
  exact ⟨_, hi', h.keys i _ _ hi hi'⟩

/-- A key has one number, and the same on both sides. -/
theorem Twins.find?_eq (h : Twins d e) (hk : SameKey d e k k') :
    d.keys.find? k = e.keys.find? k' := by
  have hfind : ∀ {d e : Discovered n} {k k' : Key} {i : Nat}, Twins d e → SameKey d e k k' →
      d.keys.get? i = some k → e.keys.get? i = some k' := by
    intro d e k k' i h hk hi
    obtain ⟨v, hv, hv'⟩ := hk.view
    obtain ⟨k'', hi', hk''⟩ := h.exists_key hi
    obtain ⟨w, hw, hw'⟩ := hk''.view
    obtain rfl := Option.some_inj.mp (hv.symm.trans hw)
    rwa [Discovered.view_inj hv' hw' hk.plain.2 hk''.plain.2]
  refine Option.ext fun i => ?_
  rw [Interner.find?_eq_some_iff, Interner.find?_eq_some_iff]
  exact ⟨hfind h hk, hfind h.symm hk.symm⟩

end Twins

namespace Build

/-! ## Parts of constructions in step -/

/-- If both parts succeed, their results are related, and what they have discovered is the same. -/
def InStep {α β : Type} (R : Discovered n → Discovered n → α → β → Prop) (x : Build n α)
    (y : Build n β) (d e : Discovered n) : Prop :=
  ∀ a d' b e', Gives x d a d' → Gives y e b e' →
    d.Extends d' ∧ e.Extends e' ∧ Twins d' e' ∧ R d' e' a b

/-- The same result. -/
def Same {α : Type} (_ _ : Discovered n) (a b : α) : Prop := a = b

section InStep

variable {α β γ δ ι : Type} {R : Discovered n → Discovered n → α → β → Prop}
  {S : Discovered n → Discovered n → γ → δ → Prop} {x : Build n α} {y : Build n β}
  {d e : Discovered n}

theorem inStep_pure {a : α} {b : β} (h : Twins d e) (hab : R d e a b) :
    InStep R (pure a) (pure b) d e := by
  intro a' d' b' e' hx hy
  obtain ⟨rfl, rfl⟩ := gives_pure.mp hx
  obtain ⟨rfl, rfl⟩ := gives_pure.mp hy
  exact ⟨.refl _, .refl _, h, hab⟩

theorem inStep_bind {f : α → Build n γ} {g : β → Build n δ} (hxy : InStep R x y d e)
    (hfg : ∀ a d' b e', d.Extends d' → e.Extends e' → Twins d' e' → R d' e' a b →
      InStep S (f a) (g b) d' e') : InStep S (x >>= f) (y >>= g) d e := by
  intro c d'' c' e'' hx hy
  obtain ⟨a, d', hxa, hx⟩ := gives_bind.mp hx
  obtain ⟨b, e', hyb, hy⟩ := gives_bind.mp hy
  obtain ⟨hd, he, ht, hab⟩ := hxy _ _ _ _ hxa hyb
  obtain ⟨hd', he', ht', hc⟩ := hfg a d' b e' hd he ht hab _ _ _ _ hx hy
  exact ⟨hd.trans hd', he.trans he', ht', hc⟩

theorem inStep_get_bind {f : Discovered n → Build n γ} {g : Discovered n → Build n δ}
    (h : InStep S (f d) (g e) d e) : InStep S (get >>= f) (get >>= g) d e := h

theorem inStep_foldlM {f g : γ → ι → Build n γ} {is : List ι} {c : γ} (h : Twins d e)
    (hfg : ∀ c i d' e', d.Extends d' → e.Extends e' → Twins d' e' →
      InStep Same (f c i) (g c i) d' e') :
    InStep Same (is.foldlM f c) (is.foldlM g c) d e := by
  induction is generalizing c d e with
  | nil => exact inStep_pure h rfl
  | cons i is ih =>
    rw [List.foldlM_cons, List.foldlM_cons]
    refine inStep_bind (hfg c i d e (.refl _) (.refl _) h) fun c' d' _ e' hd he ht hc => ?_
    cases hc
    exact ih ht fun c i d'' e'' hd' he' => hfg c i d'' e'' (hd.trans hd') (he.trans he')

end InStep

variable {p : Plan} {d e : Discovered n}

/-! ## Numbering -/

theorem inStep_internState (h : Twins d e) (s : Nfa.State) :
    InStep (fun d e i j => d.states.state? i = some s ∧ e.states.state? j = some s)
      (internState s) (internState s) d e := by
  intro i d' j e' hx hy
  obtain ⟨hd, hdk, hi⟩ := internState_gives hx
  obtain ⟨he, hek, hj⟩ := internState_gives hy
  obtain ⟨hdt, hdb, -⟩ := internState_new hx
  obtain ⟨het, heb, -⟩ := internState_new hy
  refine ⟨hd, he, h.mono hd he ⟨hdk, hek⟩ ?_ ?_, hi, hj⟩
  · rw [hdb, heb, h.boundaries]
  · exact ⟨hdt.trans h.tracer.1, het.trans h.tracer.2⟩

theorem inStep_internKey (h : Twins d e) {k k' : Key} (hk : SameKey d e k k') :
    InStep Same (internKey p k) (internKey p k') d e := by
  intro i d' j e' hx hy
  obtain ⟨hd, -⟩ := internKey_gives hx
  obtain ⟨he, -⟩ := internKey_gives hy
  obtain ⟨-, rfl, rfl⟩ := internKey_intern hx
  obtain ⟨-, rfl, rfl⟩ := internKey_intern hy
  cases hf : d.keys.find? k with
  | some l =>
    have hf' := (h.find?_eq hk).symm.trans hf
    rw [Interner.intern_of_find? hf, Interner.intern_of_find? hf'] at *
    exact ⟨hd, he, h, rfl⟩
  | none =>
    obtain ⟨hl, hitems⟩ := Interner.intern_of_find?_eq_none hf
    obtain ⟨hl', hitems'⟩ := Interner.intern_of_find?_eq_none ((h.find?_eq hk).symm.trans hf)
    have hsize : (d.keys.intern k).1.size = (e.keys.intern k').1.size := by
      rw [Interner.size, Interner.size, hitems, hitems', Array.size_push, Array.size_push]
      exact congrArg (· + 1) h.size
    refine ⟨hd, he, ⟨hsize, fun l k₁ k₁' h₁ h₁' => ?_, h.boundaries, h.tracer⟩, ?_⟩
    · have hitems_size : d.keys.items.size = e.keys.items.size := h.size
      rw [Interner.get?, hitems, Array.getElem?_push] at h₁
      rw [Interner.get?, hitems', Array.getElem?_push, ← hitems_size] at h₁'
      split at h₁
      · rename_i hlast
        rw [if_pos hlast] at h₁'
        cases h₁
        cases h₁'
        exact hk.mono hd he
      · rename_i hlast
        rw [if_neg hlast] at h₁'
        exact (h.keys l _ _ h₁ h₁').mono hd he
    · exact hl.trans (h.size.trans hl'.symm)

theorem inStep_internBoundaries (h : Twins d e) (b : Boundaries) :
    InStep Same (internBoundaries b) (internBoundaries b) d e := by
  intro i d' j e' hx hy
  obtain ⟨hd, hdk, -⟩ := internBoundaries_gives hx
  obtain ⟨he, hek, -⟩ := internBoundaries_gives hy
  obtain ⟨hi, rfl⟩ := Prod.mk.inj hx
  obtain ⟨hj, rfl⟩ := Prod.mk.inj hy
  cases hi
  cases hj
  refine ⟨hd, he, h.mono hd he ⟨hdk, hek⟩ ?_ h.tracer, ?_⟩
  · exact congrArg (fun t => (t.intern b).1) h.boundaries
  · exact congrArg (fun t => (t.intern b).2) h.boundaries

/-! ## Threads -/

theorem inStep_initialThread (h : Twins d e) (context : Context) :
    InStep SameThread (initialThread context) (initialThread context) d e := by
  refine inStep_bind (inStep_internState h _) fun i d' j e' _ _ ht hs => ?_
  refine inStep_get_bind (inStep_pure ht ⟨?_, _, hs.1, hs.2⟩)
  rw [ht.tracer.1, ht.tracer.2]
  exact ⟨rfl, rfl⟩

theorem inStep_root (h : Twins d e) (tracker : BitSet) (atStart : Bool) :
    InStep Same (root p tracker atStart) (root p tracker atStart) d e :=
  inStep_bind (inStep_initialThread h _) fun _ _ _ _ _ _ ht hthread =>
    inStep_internKey ht (.search (.cons hthread .nil) _ _)

theorem inStep_accept (h : Twins d e) (slot : Nat) (t t' : Thread) (b : Boundaries) :
    InStep Same (accept slot t b) (accept slot t' b) d e := by
  unfold accept
  refine inStep_get_bind ?_
  rw [h.tracer.1, h.tracer.2]
  refine inStep_bind (inStep_internBoundaries h b) fun i _ j _ _ _ ht hij => ?_
  exact inStep_pure ht (congrArg (Accept.slot slot) hij)

/-- Moves that differ in the numbers of their threads only. -/
structure SameMove (m m' : Move) : Prop where
  slot : m.slot = m'.slot
  transition : m.transition = m'.transition

/-- Steps that differ in the numbers of their threads only. -/
structure SameStep (d e : Discovered n) (s s' : Step) : Prop where
  threads : List.Forall₂ (SameThread d e) s.threads s'.threads
  updates : s.updates = s'.updates
  accept : s.accept = s'.accept

section Step

variable {s s' : Step} {t t' : Thread} {m m' : Move} {moves moves' : List Move} {context : Context}
  {injecting : Bool} {tracker : BitSet} {c : Nat}

theorem SameStep.mono {d' e' : Discovered n} (h : SameStep d e s s') (hd : d.Extends d')
    (he : e.Extends e') : SameStep d' e' s s' where
  threads := h.threads.imp fun _ _ ht => ht.mono hd he
  updates := h.updates
  accept := h.accept

theorem SameStep.push (h : SameStep d e s s') (ht : SameThread d e t t')
    (update : Option SlotUpdate) : SameStep d e (s.push t update) (s'.push t' update) where
  threads := .cons ht h.threads
  updates := congrArg (update.toList ++ ·) h.updates
  accept := h.accept

theorem SameStep.hasThread (h : SameStep d e s s') (ht : SameThread d e t t') :
    s.hasThread t.state = s'.hasThread t'.state := by
  have hany : ∀ {ts ts' : List Thread}, List.Forall₂ (SameThread d e) ts ts' →
      ts.any (·.state == t.state) = ts'.any (·.state == t'.state) := by
    intro ts ts' hts
    induction hts with
    | nil => rfl
    | cons hu _ ih =>
      rw [List.any_cons, List.any_cons, ih]
      refine congrArg (· || _) ?_
      rw [Bool.eq_iff_iff, beq_iff_eq, beq_iff_eq]
      exact hu.state_eq_iff ht
  exact hany h.threads

theorem inStep_advance (h : Twins d e) (hs : SameStep d e s s') (hm : SameMove m m')
    (target : Nfa.State) : InStep SameStep (advance s m target) (advance s' m' target) d e := by
  refine inStep_bind (inStep_internState h target) fun i d' j e' hd he ht hij => ?_
  have hs' := hs.mono hd he
  have hthread : SameThread d' e' ⟨i, #[]⟩ ⟨j, #[]⟩ := ⟨⟨rfl, rfl⟩, target, hij⟩
  rw [show s.hasThread i = s'.hasThread j from hs'.hasThread hthread]
  split
  · exact inStep_pure ht hs'
  · refine inStep_get_bind ?_
    rw [ht.tracer.1, ht.tracer.2, ← hm.transition, ← hm.slot]
    refine inStep_bind (inStep_internBoundaries ht _) fun b _ b' _ hd' he' ht' hb => ?_
    cases hb
    exact inStep_pure ht' ((hs'.mono hd' he').push (hthread.mono hd' he') _)

theorem inStep_makeMoves (h : Twins d e) (hs : SameStep d e s s')
    (hm : List.Forall₂ SameMove moves moves') :
    InStep SameStep (makeMoves context moves s) (makeMoves context moves' s') d e := by
  induction hm generalizing s s' d e with
  | nil => exact inStep_pure h hs
  | @cons m m' moves moves' hm _ ih =>
    unfold makeMoves
    rw [← hm.transition, ← hm.slot]
    cases m.transition.target with
    | final =>
      refine inStep_bind (inStep_accept h _ _ _ _) fun x _ x' _ hd he ht hx => ?_
      exact inStep_pure ht ⟨(hs.mono hd he).threads, hs.updates, congrArg some hx⟩
    | next main lookAheads =>
      exact inStep_bind (inStep_advance h hs hm _) fun _ _ _ _ _ _ ht hs' => ih ht hs'

theorem inStep_inject (h : Twins d e) (hs : SameStep d e s s') :
    InStep SameStep (inject context s) (inject context s') d e := by
  refine inStep_bind (inStep_initialThread h context) fun t d' t' e' hd he ht hthread => ?_
  have hs' := hs.mono hd he
  rw [hs'.hasThread hthread]
  split
  · exact inStep_pure ht hs'
  · refine inStep_get_bind ?_
    rw [ht.tracer.1, ht.tracer.2]
    exact inStep_pure ht (hs'.push hthread _)

theorem inStep_arrive (h : Twins d e) (hm : List.Forall₂ SameMove moves moves') :
    InStep SameStep (arrive moves injecting tracker c) (arrive moves' injecting tracker c) d e := by
  have hallow : List.Forall₂ SameMove (moves.filter (·.transition.cls.contains c))
      (moves'.filter (·.transition.cls.contains c)) :=
    List.rel_filter (fun m m' hm => iff_of_eq (congrArg (·.cls.contains c = true) hm.transition)) hm
  refine inStep_bind (inStep_makeMoves h ⟨.nil, rfl, rfl⟩ hallow) fun s _ s' _ _ _ ht hs => ?_
  rw [hs.accept]
  split
  · exact inStep_inject ht hs
  · exact inStep_pure ht hs

theorem inStep_target (h : Twins d e) (hs : SameStep d e s s') :
    InStep Same (target p s injecting tracker) (target p s' injecting tracker) d e := by
  have hempty : s.threads.isEmpty = s'.threads.isEmpty := by
    rw [Bool.eq_iff_iff, List.isEmpty_iff_length_eq_zero, List.isEmpty_iff_length_eq_zero,
      hs.threads.length_eq]
  unfold target
  rw [hs.threads.length_eq, hempty]
  split
  · exact fun _ _ _ _ hx => (not_gives_throw hx).elim
  · split
    · exact inStep_pure h rfl
    · exact inStep_internKey h (.search (List.rel_reverse hs.threads) _ _)

theorem inStep_step (h : Twins d e) (hm : List.Forall₂ SameMove moves moves')
    (range : CodePointRange) :
    InStep Same (step p moves injecting tracker range) (step p moves' injecting tracker range)
      d e := by
  refine inStep_bind (inStep_arrive h hm) fun s _ s' _ _ _ ht hs => ?_
  rw [hs.accept]
  refine inStep_bind (inStep_target ht hs) fun i _ j _ _ _ ht' hij => ?_
  cases hij
  exact inStep_pure ht' (by rw [hs.updates]; rfl)

end Step

/-! ## States -/

section Expand

variable {threads threads' : List Thread} {moves moves' : List Move} {injecting : Bool}
  {tracker : BitSet}

theorem inStep_expandLead (h : Twins d e) :
    InStep Same (expandLead p tracker) (expandLead p tracker) d e := by
  refine inStep_bind (inStep_root h tracker false) fun i d' j e' _ _ ht hij => ?_
  cases hij
  cases n.lookBehinds.isEmpty with
  | true => exact inStep_pure ht rfl
  | false =>
    refine inStep_bind (inStep_foldlM ht fun ts r _ _ _ _ ht => ?_) fun ts _ ts' _ _ _ ht hts => ?_
    · refine inStep_bind (inStep_internKey ht ⟨⟨nofun, nofun⟩, _, rfl, rfl⟩)
        fun k _ l _ _ _ ht hkl => ?_
      cases hkl
      exact inStep_pure ht rfl
    · cases hts
      exact inStep_pure ht rfl

theorem MovesOf.same {slot : Nat} (h : MovesOf d slot threads moves)
    (h' : MovesOf e slot threads' moves') {ss : List Nfa.State} (hs : d.HasStates threads ss)
    (hs' : e.HasStates threads' ss) : List.Forall₂ SameMove moves moves' := by
  induction h generalizing threads' moves' ss with
  | nil =>
    obtain rfl := List.forall₂_nil_left_iff.mp hs
    obtain rfl := List.forall₂_nil_right_iff.mp hs'
    cases h'
    exact .nil
  | @cons slot t s trs ts moves hts htrs _ ih =>
    obtain ⟨s', ss, ht, hss, rfl⟩ := List.forall₂_cons_left_iff.mp hs
    obtain ⟨t', ts', ht', hss', rfl⟩ := List.forall₂_cons_right_iff.mp hs'
    cases h' with
    | @cons _ _ _ trs' _ moves' hts' htrs' hrest =>
      obtain rfl := Option.some_inj.mp (hts.symm.trans ht)
      obtain rfl := Option.some_inj.mp (hts'.symm.trans ht')
      obtain rfl := Except.ok.inj (htrs.symm.trans htrs')
      refine List.rel_append ?_ (ih hrest hss hss')
      rw [List.forall₂_map_left_iff, List.forall₂_map_right_iff]
      exact List.forall₂_same.mpr fun _ _ => ⟨rfl, rfl⟩

theorem inStep_allMoves (h : Twins d e) {ss : List Nfa.State} (hs : d.HasStates threads ss)
    (hs' : e.HasStates threads' ss) :
    InStep (fun _ _ => List.Forall₂ SameMove) (allMoves threads) (allMoves threads') d e := by
  intro moves d' moves' e' hx hy
  obtain ⟨rfl, hmoves⟩ := allMoves_movesOf hs.known hx
  obtain ⟨rfl, hmoves'⟩ := allMoves_movesOf hs'.known hy
  exact ⟨.refl _, .refl _, h, hmoves.same hmoves' hs hs'⟩

theorem inStep_endAccept (h : Twins d e) (hm : List.Forall₂ SameMove moves moves') :
    InStep Same (endAccept moves) (endAccept moves') d e := by
  unfold endAccept
  induction hm with
  | nil => exact inStep_pure h rfl
  | @cons m m' moves moves' hm _ ih =>
    rw [List.find?_cons, List.find?_cons, ← hm.transition]
    cases m.transition.acceptsEnd with
    | false => exact ih
    | true =>
      simp only
      rw [← hm.slot, ← hm.transition]
      refine inStep_bind (inStep_accept h _ _ _ _) fun x _ x' _ _ _ ht hx => ?_
      exact inStep_pure ht (congrArg some hx)

theorem inStep_expandSearch (h : Twins d e) {ss : List Nfa.State} (hs : d.HasStates threads ss)
    (hs' : e.HasStates threads' ss) :
    InStep Same (expandSearch p threads injecting tracker)
      (expandSearch p threads' injecting tracker) d e := by
  refine inStep_bind (inStep_allMoves h hs hs') fun moves d1 moves' e1 _ _ ht1 hm => ?_
  have hcuts : moves.flatMap (cuts ·.transition.cls) = moves'.flatMap (cuts ·.transition.cls) := by
    have hmap : moves.map (·.transition) = moves'.map (·.transition) := by
      rw [← List.forall₂_eq_eq_eq, List.forall₂_map_left_iff, List.forall₂_map_right_iff]
      exact hm.imp fun _ _ hm => hm.transition
    simpa only [List.flatMap_map] using congrArg (List.flatMap fun t => cuts t.cls) hmap
  rw [hcuts]
  refine inStep_bind (inStep_foldlM ht1 fun ts r _ _ _ _ ht => ?_) fun ts d2 ts' e2 _ _ ht2 hts => ?_
  · refine inStep_bind (inStep_step ht hm r) fun t _ t' _ _ _ ht htt => ?_
    cases htt
    exact inStep_pure ht rfl
  · cases hts
    refine inStep_bind (inStep_endAccept ht2 hm) fun x d3 x' e3 _ _ ht3 hx => ?_
    cases hx
    refine inStep_get_bind (inStep_pure ht3 ?_)
    rw [ht3.tracer.1, ht3.tracer.2, hs.length_eq, hs'.length_eq]
    rfl

theorem inStep_expand (h : Twins d e) {k k' : Key} (hk : SameKey d e k k') :
    InStep Same (expand p k) (expand p k') d e := by
  obtain ⟨v, hv, hv'⟩ := hk.view
  cases v with
  | dead =>
    rw [Discovered.view_eq_dead hv, Discovered.view_eq_dead hv']
    exact inStep_pure h rfl
  | lead tracker =>
    rw [Discovered.view_eq_lead hv, Discovered.view_eq_lead hv']
    exact inStep_expandLead h
  | search ss injecting tracker =>
    obtain ⟨threads, rfl, hs⟩ := Discovered.view_eq_search hv
    obtain ⟨threads', rfl, hs'⟩ := Discovered.view_eq_search hv'
    exact inStep_expandSearch h hs hs'

theorem inStep_expandAll (h : Twins d e) {fuel : Nat} {done : Array State} :
    InStep Same (expandAll p fuel done) (expandAll p fuel done) d e := by
  induction fuel generalizing d e done with
  | zero => exact inStep_pure h rfl
  | succ fuel ih =>
    unfold expandAll
    refine inStep_get_bind ?_
    cases hk : d.keys.get? done.size with
    | none =>
      have hk' : e.keys.get? done.size = none :=
        Interner.get?_eq_none (h.size ▸ Array.getElem?_eq_none_iff.mp hk)
      rw [hk']
      exact inStep_pure h rfl
    | some k =>
      obtain ⟨k', hk', hsame⟩ := h.exists_key hk
      rw [hk']
      refine inStep_bind (inStep_expand h hsame) fun s _ s' _ _ _ ht hs => ?_
      cases hs
      exact ih ht

theorem inStep_dfa (h : Twins d e) : InStep Same (dfa p) (dfa p) d e := by
  refine inStep_bind (inStep_root h _ _) fun i d1 i' e1 _ _ ht1 hi => ?_
  refine inStep_bind (inStep_internKey ht1 ⟨⟨nofun, nofun⟩, _, rfl, rfl⟩)
    fun j d2 j' e2 _ _ ht2 hj => ?_
  refine inStep_bind (inStep_expandAll ht2) fun ss d3 ss' e3 _ _ ht3 hss => ?_
  cases hi
  cases hj
  cases hss
  refine inStep_get_bind (inStep_pure ht3 ?_)
  rw [ht3.boundaries, ht3.tracer.1, ht3.tracer.2]
  rfl

end Expand

/-- Whatever states were discovered before, constructions with slots make the same automaton. -/
theorem build_unique {states states' : Nfa.States n} {a b : Dfa}
    (ha : (build states p none).1 = .ok a) (hb : (build states' p none).1 = .ok b) : a = b := by
  have hstart : Twins (Discovered.start states none) (Discovered.start states' none) := by
    refine ⟨rfl, fun i k k' hk hk' => ?_, rfl, rfl, rfl⟩
    have hdead : ∀ {k}, (Interner.empty.intern Key.dead).1.get? i = some k → k = .dead := by
      intro k hk
      rcases Interner.get?_intern hk with hk | rfl
      · cases hk
      · rfl
    rw [hdead hk, hdead hk']
    exact ⟨⟨nofun, nofun⟩, .dead, rfl, rfl⟩
  exact (inStep_dfa hstart a _ b _ (Prod.ext ha rfl) (Prod.ext hb rfl)).2.2.2

end Build

end PatternAutomata.Dfa
