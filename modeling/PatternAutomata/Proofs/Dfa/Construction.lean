import PatternAutomata.Proofs.Dfa.Intervals
import PatternAutomata.Proofs.Dfa.Steps
import PatternAutomata.Proofs.Nfa.Runs

/-!
# Where moves lead

`Valid` holds of everything that is discovered, and `Leads` says where a list of moves leads on a
character. A step of the construction finds what the moves lead to.
-/

namespace PatternAutomata.Dfa

variable {n : Nfa}

/-! ## What holds of all that is discovered -/

/-- A thread, with traces, is one character after another thread at least where a group was entered
before. So distances do not grow without bound while keys are limited. -/
def Traceable (keys : Interner Key) (t : Thread) : Prop :=
  ∀ j e : Nat, t.captures[j]? = some (some (e + 2)) →
    ∃ i k, keys.get? i = some k ∧ ∃ t' ∈ k.threads, t'.captures[j]? = some (some (e + 1))

/-- The threads of a key have states, and are not too many. -/
structure KeyValid (p : Plan) (d : Discovered n) (k : Key) : Prop where
  states : ∀ t ∈ k.threads, ∃ s, d.states.state? t.state = some s
  count : k.threads.length ≤ max 1 p.maxThreads
  traceable : ∀ t ∈ k.threads, Traceable d.keys t

structure Valid (p : Plan) (d : Discovered n) : Prop where
  dead : d.keys.get? dead = some .dead
  noBoundaries : d.boundaries.get? Build.noBoundaries = some .empty
  size : d.keys.size ≤ max 1 p.maxStates
  keys : ∀ i k, d.keys.get? i = some k → KeyValid p d k

section Valid

variable {p : Plan} {d d' : Discovered n} {k : Key}

theorem KeyValid.mono (h : KeyValid p d k) (hd : d.Extends d') : KeyValid p d' k where
  states t ht := by
    obtain ⟨s, hs⟩ := h.states t ht
    exact ⟨s, hd.states _ _ hs⟩
  count := h.count
  traceable t ht j e hj := by
    obtain ⟨i, k, hi, ht⟩ := h.traceable t ht j e hj
    exact ⟨i, k, hd.keys _ _ hi, ht⟩

theorem Valid.mono (h : Valid p d) (hd : d.Extends d') (hk : d'.keys = d.keys) : Valid p d' where
  dead := hd.keys _ _ h.dead
  noBoundaries := hd.boundaries _ _ h.noBoundaries
  size := hk ▸ h.size
  keys i k hi := (h.keys i k (hk ▸ hi)).mono hd

theorem Valid.internKey {i : StateId} (h : Valid p d) (hk : KeyValid p d k)
    (hi : Build.Gives (Build.internKey p k) d i d') : Valid p d' := by
  obtain ⟨he, -, hnew, hsize⟩ := Build.internKey_gives hi
  refine ⟨he.keys _ _ h.dead, he.boundaries _ _ h.noBoundaries, ?_, fun j k' hj => ?_⟩
  · have := h.size
    omega
  · rcases hnew j k' hj with hj | rfl
    · exact (h.keys j k' hj).mono he
    · exact hk.mono he

end Valid

namespace Build

/-! ## Where moves lead -/

/-- The moves that allow a character. -/
def allowing (moves : List Move) (c : Nat) : List Move :=
  moves.filter (·.transition.cls.contains c)

/-- Whether further threads may begin after the character `c`. -/
def stillInjecting (moves : List Move) (injecting : Bool) (c : Nat) : Bool :=
  injecting && (firstFinal (allowing moves c)).isNone

/-- All arrivals on the character `c`, the last one first. -/
def arrived (n : Nfa) (moves : List Move) (injecting : Bool) (tracker : BitSet) (c : Nat) :
    List Arrival :=
  let context := n.contextOf false (n.lookBehinds.advance tracker c)
  let as := (arrivals context (allowing moves c)).foldl Arrival.join []
  if stillInjecting moves injecting c then Arrival.join as ⟨n.initial context, none⟩ else as

/-- The outcome of a transition on `c` is what the moves lead to. -/
structure Leads (p : Plan) (d : Discovered n) (moves : List Move) (injecting : Bool) (tracker : BitSet)
    (c : Nat) (o : StateId × List SlotUpdate × Option Accept) : Prop where
  accept : match firstFinal (allowing moves c) with
    | none => o.2.2 = none
    | some m => ∃ x, o.2.2 = some x ∧ Reports d m x
  target : ∃ ts us, Realized d (arrived n moves injecting tracker c) ts us ∧ o.2.1 = us.reverse ∧
    (ts = [] ∧ o.1 = dead ∨ ts ≠ [] ∧ d.keys.get? o.1 =
      some (.search ts.reverse (stillInjecting moves injecting c)
        (n.lookBehinds.advance tracker c)))
  count : (arrived n moves injecting tracker c).length ≤ p.maxThreads

section Leads

variable {p : Plan} {d d' : Discovered n} {moves : List Move} {injecting : Bool} {tracker : BitSet}
  {c c' : Nat} {o : StateId × List SlotUpdate × Option Accept}

theorem Leads.mono (h : Leads p d moves injecting tracker c o) (hd : d.Extends d') :
    Leads p d' moves injecting tracker c o where
  accept := by
    have := h.accept
    split at this
    · exact this
    · obtain ⟨x, hx, hr⟩ := this
      exact ⟨x, hx, hr.mono hd⟩
  target := by
    obtain ⟨ts, us, hr, hu, ht⟩ := h.target
    exact ⟨ts, us, hr.mono hd, hu, ht.imp_right fun h => ⟨h.1, hd.keys _ _ h.2⟩⟩
  count := h.count

/-- Characters that no class tells apart lead to the same. -/
theorem Leads.congr (h : Leads p d moves injecting tracker c o)
    (hcls : ∀ m ∈ moves, m.transition.cls.contains c' = m.transition.cls.contains c)
    (htr : n.lookBehinds.advance tracker c' = n.lookBehinds.advance tracker c) :
    Leads p d moves injecting tracker c' o := by
  have hallow : allowing moves c' = allowing moves c := List.filter_congr hcls
  have harr : arrived n moves injecting tracker c' = arrived n moves injecting tracker c := by
    unfold arrived stillInjecting
    rw [hallow, htr]
  obtain ⟨hacc, htar, hcount⟩ := h
  refine ⟨hallow ▸ hacc, ?_, harr ▸ hcount⟩
  rw [harr, stillInjecting, hallow, htr]
  exact htar

theorem mem_arrivals {context : Context} {a : Arrival} (h : a ∈ arrivals context moves) :
    ∃ m ∈ moves, ∃ main lookAheads, m.transition.target = .next main lookAheads ∧
      a = ⟨{ main, lookAheads, context }, some m⟩ := by
  induction moves with
  | nil => cases h
  | cons m moves ih =>
    unfold arrivals at h
    split at h
    · cases h
    · rename_i main lookAheads htarget
      rcases List.mem_cons.mp h with rfl | h
      · exact ⟨m, by simp, main, lookAheads, htarget, rfl⟩
      · obtain ⟨m', hm', ha⟩ := ih h
        exact ⟨m', by simp [hm'], ha⟩

theorem mem_join {as : List Arrival} {a b : Arrival} (h : a ∈ Arrival.join as b) :
    a ∈ as ∨ a = b := by
  unfold Arrival.join at h
  split at h
  · exact .inl h
  · exact (List.mem_cons.mp h).symm

theorem mem_foldl_join {as bs : List Arrival} {a : Arrival}
    (h : a ∈ bs.foldl Arrival.join as) : a ∈ as ∨ a ∈ bs := by
  induction bs generalizing as with
  | nil => exact .inl h
  | cons b bs ih =>
    rcases ih h with h | h
    · exact (mem_join h).imp_right (by rintro rfl; simp)
    · exact .inr (by simp [h])

/-- Every arrival is that of a move that allows the character, or of the thread that begins. -/
theorem exists_of_mem_arrived {a : Arrival} (h : a ∈ arrived n moves injecting tracker c) :
    let context := n.contextOf false (n.lookBehinds.advance tracker c)
    a = ⟨n.initial context, none⟩ ∨ ∃ m ∈ moves, m.transition.cls.contains c = true ∧
      ∃ main lookAheads, m.transition.target = .next main lookAheads ∧
        a = ⟨{ main, lookAheads, context }, some m⟩ := by
  intro context
  have hmove : ∀ a ∈ (arrivals context (allowing moves c)).foldl Arrival.join [],
      ∃ m ∈ moves, m.transition.cls.contains c = true ∧
        ∃ main lookAheads, m.transition.target = .next main lookAheads ∧
          a = ⟨{ main, lookAheads, context }, some m⟩ := by
    intro a ha
    obtain ⟨m, hm, hma⟩ := mem_arrivals ((mem_foldl_join ha).resolve_left nofun)
    obtain ⟨hm, hc⟩ := List.mem_filter.mp hm
    exact ⟨m, hm, hc, hma⟩
  unfold arrived at h
  simp only at h
  split at h
  · exact (mem_join h).symm.imp_right (hmove a)
  · exact .inr (hmove a h)

theorem mem_arrived {a : Arrival} (h : a ∈ arrived n moves injecting tracker c) :
    a.move = none ∨ ∃ m ∈ moves, a.move = some m := by
  rcases exists_of_mem_arrived h with rfl | ⟨m, hm, -, main, lookAheads, -, rfl⟩
  · exact .inl rfl
  · exact .inr ⟨m, hm, rfl⟩

/-- With traces, moving keeps distances traceable. -/
theorem Realizes.traceable {a : Arrival} {t : Thread} {u : Option SlotUpdate}
    (h : Realizes d a t u)
    (hm : a.move = none ∨ ∃ m, a.move = some m ∧
      ∃ i k, d.keys.get? i = some k ∧ m.thread ∈ k.threads) : Traceable d.keys t := by
  intro j e hj
  cases hg : d.traced? with
  | none =>
    rw [(h.tracked hg).1] at hj
    cases hj
  | some groups =>
    rw [(h.traced groups hg).2] at hj
    rcases hm with hm | ⟨m, hm, i, k, hi, ht⟩
    · rw [hm] at hj
      simp [RelativeCaptures.fresh, Array.getElem?_replicate] at hj
    · rw [hm] at hj
      simp only [Option.elim_some, RelativeCaptures.advance, RelativeCaptures.record,
        Boundaries.apply, Array.getElem?_map, Array.getElem?_mapIdx, Option.map_map] at hj
      refine ⟨i, k, hi, m.thread, ht, ?_⟩
      cases hc : m.thread.captures[j]? with
      | none => simp [hc] at hj
      | some x =>
        simp only [hc, Option.map_some, Function.comp_apply, Option.some.injEq] at hj
        split at hj
        · simp only [Option.bind_some, RelativeCaptures.lengthen] at hj
          split at hj <;> cases hj
        · split at hj
          · cases hj
          · cases x with
            | none => cases hj
            | some y =>
              simp only [Option.bind_some, RelativeCaptures.lengthen] at hj
              split at hj
              · simp only [Option.some.injEq] at hj
                rw [Nat.succ.inj hj]
              · cases hj

end Leads

/-! ## Steps -/

section Step

variable {p : Plan} {d d' : Discovered n} {moves : List Move} {injecting : Bool} {tracker : BitSet}

/-- The moves are those of threads that were discovered. -/
def Known (d : Discovered n) (moves : List Move) : Prop :=
  ∀ m ∈ moves, ∃ i k, d.keys.get? i = some k ∧ m.thread ∈ k.threads

theorem Known.mono (h : Known d moves) (hd : d.Extends d') : Known d' moves := by
  intro m hm
  obtain ⟨i, k, hi, ht⟩ := h m hm
  exact ⟨i, k, hd.keys _ _ hi, ht⟩

/-- Further threads may begin while no move has matched. -/
theorem makeMoves_injecting {context : Context} {c : Nat} {s : Step}
    (h : Gives (makeMoves context (allowing moves c) {}) d s d') :
    (injecting && s.accept.isNone) = stillInjecting moves injecting c := by
  obtain ⟨-, -, -, hacc⟩ := makeMoves_gives h .nil
  unfold stillInjecting
  cases hf : firstFinal (allowing moves c) with
  | none =>
    simp only [hf] at hacc
    rw [hacc, Option.isNone_none]
    rfl
  | some m =>
    simp only [hf] at hacc
    obtain ⟨x, hx, -⟩ := hacc
    rw [hx, Option.isNone_some, Option.isNone_some]

theorem arrive_gives {c : Nat} {s : Step}
    (h : Gives (arrive moves injecting (n.lookBehinds.advance tracker c) c) d s d')
    (h0 : d.boundaries.get? noBoundaries = some .empty) :
    d.Extends d' ∧ d'.keys = d.keys ∧
      (injecting && s.accept.isNone) = stillInjecting moves injecting c ∧
      Realized d' (arrived n moves injecting tracker c) s.threads s.updates ∧
      match firstFinal (allowing moves c) with
      | none => s.accept = none
      | some m => ∃ x, s.accept = some x ∧ Reports d' m x := by
  obtain ⟨s1, d1, hmoves, h⟩ := gives_bind.mp h
  obtain ⟨he1, hk1, hs1, hacc⟩ := makeMoves_gives hmoves .nil
  have hstill : (injecting && s1.accept.isNone) = stillInjecting moves injecting c :=
    makeMoves_injecting hmoves
  change (match firstFinal (allowing moves c) with
    | none => s1.accept = none
    | some m => ∃ x, s1.accept = some x ∧ Reports d1 m x) at hacc
  rw [hstill] at h
  unfold arrived
  cases hst : stillInjecting moves injecting c with
  | true =>
    simp only [hst, ite_true] at h ⊢
    obtain ⟨he2, hk2, ha2, hs2⟩ := inject_gives h hs1 (he1.boundaries _ _ h0)
    refine ⟨he1.trans he2, hk2.trans hk1, by rw [ha2, hstill, hst], hs2, ?_⟩
    rw [ha2]
    cases hf : firstFinal (allowing moves c) with
    | none => simpa only [hf] using hacc
    | some m =>
      simp only [hf] at hacc
      obtain ⟨x, hx, hr⟩ := hacc
      exact ⟨x, hx, hr.mono he2⟩
  | false =>
    simp only [hst, Bool.false_eq_true, ite_false] at h ⊢
    obtain ⟨rfl, rfl⟩ := gives_pure.mp h
    exact ⟨he1, hk1, by rw [hstill, hst], hs1, hacc⟩

/-- The threads of a step are those of a valid key. -/
theorem keyValid_arrived {c : Nat} {ts : List Thread} {us : List SlotUpdate}
    (hs : Realized d (arrived n moves injecting tracker c) ts us) (hm : Known d moves)
    (hle : (arrived n moves injecting tracker c).length ≤ p.maxThreads) (stillInjecting : Bool) :
    KeyValid p d (.search ts.reverse stillInjecting (n.lookBehinds.advance tracker c)) := by
  refine ⟨fun t ht => ?_, ?_, fun t ht => ?_⟩
  · obtain ⟨a, -, u, hr⟩ := hs.mem_thread (List.mem_reverse.mp ht)
    exact ⟨_, hr.state⟩
  · rw [hs.length_eq] at hle
    simp only [Key.threads, List.length_reverse]
    omega
  · obtain ⟨a, ha, u, hr⟩ := hs.mem_thread (List.mem_reverse.mp ht)
    refine hr.traceable ((mem_arrived ha).imp_right ?_)
    rintro ⟨m, hmem, hma⟩
    exact ⟨m, hma, hm m hmem⟩

theorem step_gives {range : CodePointRange} {t : Transition}
    (h : Gives (step p moves injecting tracker range) d t d') (hv : Valid p d)
    (hm : Known d moves) :
    d.Extends d' ∧ Valid p d' ∧ t.range = range ∧
      Leads p d' moves injecting tracker range.lo t.outcome := by
  obtain ⟨s, d1, harrive, h⟩ := gives_bind.mp h
  obtain ⟨he1, hk1, hstill, hs, hacc⟩ := arrive_gives harrive hv.noBoundaries
  have hv1 := hv.mono he1 hk1
  have hm1 := hm.mono he1
  rw [hstill] at h
  obtain ⟨id, d2, htar, h⟩ := gives_bind.mp h
  obtain ⟨rfl, rfl⟩ := gives_pure.mp h
  have haccept : d1.Extends d' →
      match firstFinal (allowing moves range.lo) with
      | none => s.accept = none
      | some m => ∃ x, s.accept = some x ∧ Reports d' m x := by
    intro he
    cases hf : firstFinal (allowing moves range.lo) with
    | none => simpa only [hf] using hacc
    | some m =>
      simp only [hf] at hacc
      obtain ⟨x, hx, hr⟩ := hacc
      exact ⟨x, hx, hr.mono he⟩
  unfold target at htar
  split at htar
  · exact (not_gives_throw htar).elim
  · rename_i hcount
    have hle := Nat.le_of_not_lt hcount
    rw [← hs.length_eq] at hle
    split at htar
    · rename_i hempty
      obtain ⟨rfl, rfl⟩ := gives_pure.mp htar
      rw [List.isEmpty_iff] at hempty
      exact ⟨he1, hv1, rfl, ⟨haccept (.refl _), ⟨_, _, hs, rfl, .inl ⟨hempty, rfl⟩⟩, hle⟩⟩
    · rename_i hne
      rw [List.isEmpty_iff] at hne
      have hkv := keyValid_arrived hs hm1 hle (stillInjecting moves injecting range.lo)
      obtain ⟨he2, hi, -, -⟩ := internKey_gives htar
      exact ⟨he1.trans he2, hv1.internKey hkv htar, rfl,
        ⟨haccept he2, ⟨_, _, hs.mono he2, rfl, .inr ⟨hne, hi⟩⟩, hle⟩⟩

end Step

end Build

end PatternAutomata.Dfa
