import PatternAutomata.Proofs.Backtrack.Spans
import PatternAutomata.Proofs.Matching

/-!
# Spans of matches

The spans that a match reports are well-formed, whatever was looked ahead for. They lie in the text,
at or after the place where the search began; outside of look-aheads they lie in the match, and the
span of a group in that of the group around it.
-/

namespace PatternAutomata

variable {t : Tree} {own : List Write} {inner : List Write → Prop} {g : Nat}

/-! ## Entries -/

theorem Write.position_of_value {w : Write} {p : Nat} (h : w.value = some p) : w.position = p := by
  obtain ⟨op, position⟩ := w
  cases op <;> cases h <;> rfl

/-- A value is that of a last write, and no last write comes after it. -/
theorem Leaves.exists_write {i p : Nat} {v : Option Nat} (h : Leaves own inner i none v)
    (hv : v = some p) :
    (∃ ws w, (ws = own ∨ inner ws) ∧ lastWrite i ws = some w ∧ w.value = some p) ∧
      ∀ ws w, ws = own ∨ inner ws → lastWrite i ws = some w → w.position ≤ p := by
  cases h with
  | @inner ws w hws hw hinner hown =>
    refine ⟨⟨ws, w, .inr hws, hw, hv⟩, fun ws' w' hws' hw' => ?_⟩
    rw [← Write.position_of_value hv]
    rcases hws' with rfl | hws'
    · exact hown w' hw'
    · exact hinner ws' w' hws' hw'
  | @own w hw hinner =>
    refine ⟨⟨own, w, .inl rfl, hw, hv⟩, fun ws' w' hws' hw' => ?_⟩
    rw [← Write.position_of_value hv]
    rcases hws' with rfl | hws'
    · cases hw.symm.trans hw'
      exact Nat.le_refl _
    · exact Nat.le_of_lt (hinner ws' w' hws' hw')
  | nothing => cases hv

/-- If every part is paired, the entries that are left have a start that is not after the end. -/
theorem Leaves.start_le {s e : Nat} (hpaired : ∀ ws, ws = own ∨ inner ws → Paired ws g)
    (hstart : Leaves own inner (2 * g) none (some s))
    (hstop : Leaves own inner (2 * g + 1) none (some e)) : s ≤ e := by
  obtain ⟨⟨ws, w, hws, hw, hvalue⟩, -⟩ := hstart.exists_write rfl
  obtain ⟨-, hlast⟩ := hstop.exists_write rfl
  cases hpaired ws hws with
  | untouched hnone =>
    rw [hnone] at hw
    cases hw
  | reset hreset _ hnone =>
    cases hreset.symm.trans hw
    rw [hnone] at hvalue
    cases hvalue
  | span hspan hle =>
    cases hspan.start.symm.trans hw
    cases hvalue
    exact Nat.le_trans hle (hlast ws _ hws hspan.stop)

theorem Leaves.bounds {ends : Nat → Nat} {first last i p : Nat}
    (hparts : ∀ ws, ws = own ∨ inner ws → ∃ lo hi, Settled ends lo hi first last ws)
    (h : Leaves own inner i none (some p)) : first ≤ p ∧ p ≤ last := by
  obtain ⟨⟨ws, w, hws, hw, hvalue⟩, -⟩ := h.exists_write rfl
  obtain ⟨lo, hi, hsettled⟩ := hparts ws hws
  exact Write.position_of_value hvalue ▸ hsettled.position w (mem_of_lastWrite hw).1

theorem Paired.isSome_iff {ws : List Write} (h : Paired ws g) :
    ((lastWrite (2 * g) ws).bind Write.value).isSome ↔
      ((lastWrite (2 * g + 1) ws).bind Write.value).isSome := by
  cases h with
  | untouched hstart hstop => rw [hstart, hstop]
  | reset hstart hstop hw hw' => rw [hstart, hstop, Option.bind_some, Option.bind_some, hw, hw']
  | span h => simp [h.start, h.stop, Write.value, CaptureOp.value]

theorem Paired.spans_iff {ws : List Write} {s e : Nat} (h : Paired ws g) :
    Spans ws g s e ↔ (lastWrite (2 * g) ws).bind Write.value = some s ∧
      (lastWrite (2 * g + 1) ws).bind Write.value = some e := by
  constructor
  · intro hspans
    rw [hspans.start, hspans.stop]
    exact ⟨rfl, rfl⟩
  · rintro ⟨hstart, hstop⟩
    cases h with
    | untouched hnone =>
      rw [hnone] at hstart
      cases hstart
    | reset hreset _ hnone =>
      rw [hreset, Option.bind_some, hnone] at hstart
      cases hstart
    | span h =>
      rw [h.start] at hstart
      rw [h.stop] at hstop
      cases hstart
      cases hstop
      exact h

section Captures

variable {captures : Captures} {n i : Nat} (hsize : captures.size = n)
  (hentry : ∀ i < n, ∃ v, captures[i]? = some v ∧ Leaves own inner i none v)
include hsize hentry

theorem Leaves.of_join {p : Nat} (hp : captures[i]?.join = some p) :
    Leaves own inner i none (some p) := by
  have hi : i < n := Nat.lt_of_not_le fun hle => by
    rw [Array.getElem?_eq_none_iff.mpr (hsize ▸ hle)] at hp
    cases hp
  obtain ⟨v, hv, hleaves⟩ := hentry i hi
  rw [hv, Option.join_some] at hp
  exact hp ▸ hleaves

theorem Leaves.join_eq_own (hinner : ∀ ws, inner ws → lastWrite i ws = none)
    (hown : n ≤ i → lastWrite i own = none) :
    captures[i]?.join = (lastWrite i own).bind Write.value := by
  rcases Nat.lt_or_ge i n with hi | hi
  · obtain ⟨v, hv, hleaves⟩ := hentry i hi
    rw [hv, Option.join_some, hleaves.eq_own hinner]
  · rw [Array.getElem?_eq_none_iff.mpr (hsize ▸ hi), hown hi]
    rfl

end Captures

/-! ## Matches -/

/-- Group `o` captures around group `i` in the pattern. -/
def Tree.Encloses (t : Tree) (o i : Nat) : Prop :=
  ∃ id ∈ t.reachable, ∃ g, t.group? id = some g ∧ g.number? = some o ∧
    g.innerStart ≤ i ∧ i < g.innerEnd

namespace Match

/-- The start of a group, if it is set. -/
def start? (m : Match) (g : Nat) : Option Nat := m.captures[2 * g]?.join

/-- The end of a group, if it is set. -/
def stop? (m : Match) (g : Nat) : Option Nat := m.captures[2 * g + 1]?.join

/-- The spans of a match that was looked for from `start` on, in a text of the given length, are
well-formed. -/
structure WellSpanned (t : Tree) (sticky : Bool) (start length : Nat) (m : Match) : Prop where
  /-- The whole match is always reported. -/
  range : ∃ first last, m.range? = some (first, last) ∧ start ≤ first ∧ first ≤ last ∧
    last ≤ length ∧ (sticky = true → first = start)
  bounds : ∀ g s e, m.group? g = some (s, e) → start ≤ s ∧ s ≤ e ∧ e ≤ length
  /-- Outside of look-aheads no end of a group is set alone. -/
  set_iff : ∀ g, t.insideLookAhead g = false → ((m.start? g).isSome ↔ (m.stop? g).isSome)
  within : ∀ g s e first last, t.insideLookAhead g = false → m.group? g = some (s, e) →
    m.range? = some (first, last) → first ≤ s ∧ e ≤ last
  nested : ∀ o i s e s' e', t.Encloses o i → t.insideLookAhead o = false →
    t.insideLookAhead i = false → m.group? o = some (s, e) → m.group? i = some (s', e') →
    s ≤ s' ∧ e' ≤ e

end Match

theorem Match.group?_eq_some {m : Match} {s e : Nat} :
    m.group? g = some (s, e) ↔ m.start? g = some s ∧ m.stop? g = some e := by
  unfold group? start? stop?
  cases m.captures[2 * g]?.join <;> cases m.captures[2 * g + 1]?.join <;> simp

section Outside

variable {m : Match} (hpaired : Paired own g)
  (hentry : ∀ i, i / 2 = g → m.captures[i]?.join = (lastWrite i own).bind Write.value)
include hpaired hentry

theorem Match.group?_iff_spans {s e : Nat} : m.group? g = some (s, e) ↔ Spans own g s e := by
  rw [Match.group?_eq_some, hpaired.spans_iff, ← hentry (2 * g) (by omega),
    ← hentry (2 * g + 1) (by omega)]
  rfl

theorem Match.isSome_start?_iff : (m.start? g).isSome ↔ (m.stop? g).isSome := by
  unfold start? stop?
  rw [hentry (2 * g) (by omega), hentry (2 * g + 1) (by omega)]
  exact hpaired.isSome_iff

end Outside

section Execute

variable {pattern : String} {flags : Flags} {budget : Budget} {properties : PropertyLookup}
  {m : Matcher}

theorem le_length_of_execute {input : List Char} {start : Nat} {found : Match}
    (hfound : m.execute input start = some found) : start ≤ input.length := by
  by_contra hstart
  rw [Matcher.execute, Dfa.search, if_neg hstart] at hfound
  cases hfound

/-- What the journal of a match writes is tidy, and spans the match. -/
theorem Tree.settled_journalAt (ht : Pattern.parse pattern flags budget properties = .ok t)
    {x : Subject} {start : Nat} (hstart : start ≤ x.text.length) {j : Journal}
    (hj : t.journalAt x start = some j) : ∃ ends last,
      (∀ o i, t.Encloses o i → o < i ∧ i < ends o) ∧ last ≤ x.text.length ∧
      Settled ends 0 t.groupCount start last j.own ∧ Spans j.own 0 start last ∧
      ∀ ws ∈ j.inner, ∃ lo hi, Settled ends lo hi start x.text.length ws := by
  have hwell := Pattern.wellFormed_parse ht
  obtain ⟨ends, hnumbered⟩ := Pattern.numbered_parse ht
  obtain ⟨alternatives, hroot⟩ := Pattern.root_parse ht
  have hnumber : ∀ id g n, t.kind id = .group g → g.number? = some n →
      g.innerStart = n + 1 ∧ g.innerEnd = ends n := fun id g n hg hn =>
    ((hnumbered id g hg).2 n hn).2.2
  obtain ⟨s, hs, rfl⟩ := Option.map_eq_some_iff.mp hj
  obtain ⟨j, hj⟩ := Tree.exists_tidy hwell hnumber hstart (List.mem_of_mem_head? hs)
  have hfits : (t.kind t.root).FitsIn 0 t.groupCount := by
    rw [hroot]
    refine ⟨⟨Nat.zero_le _, Nat.le_refl _⟩, fun n hn => ⟨Nat.zero_le _, ?_⟩⟩
    exact ((hnumbered t.root _ hroot).2 n hn).1
  have hadds := hj.adds _ _ hfits
  have hspans := hj.spans _ 0 hroot rfl
  have hmemory : s.memory = j := by
    rw [hadds.memory]
    simp [Journal.after]
  rw [hmemory]
  refine ⟨ends, s.position, ?_, hadds.le_length, hadds.own, hspans, hadds.inner⟩
  rintro o i ⟨id, -, g, hg, hn, h1, h2⟩
  obtain ⟨hinner, hend⟩ := hnumber id g o (Tree.group?_eq_some.mp hg) hn
  omega

/-- Inside of look-aheads the ends of a group may come from different parts of the match, and may be
set alone. Even then they lie in the text, and in order. -/
theorem execute_wellSpanned (hm : compile pattern flags budget properties = .ok m)
    (ht : Pattern.parse pattern flags budget.clamp properties = .ok t) {input : List Char}
    {start : Nat} {found : Match} (hfound : m.execute input start = some found) :
    found.groupCount = m.dfa.groups ∧
      found.WellSpanned t flags.sticky start input.length := by
  obtain ⟨first, hfirst, hle, hsticky, j, hj, hsize, hentry⟩ :=
    exists_startOutcome hm ht (le_length_of_execute hfound) hfound
  obtain ⟨ends, last, hencloses, hlast, hown, hspans, hinner⟩ := Tree.settled_journalAt ht hle hj
  have hwell := Pattern.wellFormed_parse ht
  -- Look-aheads may go on after the end of the match, but not after that of the text.
  have hparts : ∀ ws, ws = j.own ∨ ws ∈ j.inner →
      ∃ lo hi, Settled ends lo hi first input.length ws := by
    rintro ws (rfl | hws)
    · exact ⟨_, _, hown.mono (Nat.le_refl _) (Nat.le_refl _) (Nat.le_refl _) hlast⟩
    · exact hinner ws hws
  have hleaves : ∀ i p : Nat, found.captures[i]?.join = some p →
      Leaves j.own (· ∈ j.inner) i none (some p) := fun i p => Leaves.of_join hsize hentry
  have houtside : ∀ g, t.insideLookAhead g = false → ∀ i, i / 2 = g →
      found.captures[i]?.join = (lastWrite i j.own).bind Write.value := fun g hg i hi =>
    Leaves.join_eq_own hsize hentry (Tree.lastWrite_inner_of_journalAt hwell hj (hi.symm ▸ hg))
      fun hle => hown.lastWrite_outside (by omega)
  have hgroup : ∀ g s e, t.insideLookAhead g = false →
      (found.group? g = some (s, e) ↔ Spans j.own g s e) := fun g s e hg =>
    Match.group?_iff_spans (hown.paired g) (houtside g hg)
  have hrange : found.range? = some (first, last) :=
    (hgroup 0 first last (Tree.insideLookAhead_zero hwell)).mpr hspans
  refine ⟨?_, ?_, ?_, ?_, ?_, ?_⟩
  · obtain ⟨t', a, ht', ha, rfl⟩ := compile_eq_ok_iff.mp hm
    obtain rfl : t = t' := Except.ok.inj (ht.symm.trans ht')
    rw [Match.groupCount, hsize, groups_of_automaton ha]
    omega
  · exact ⟨first, last, hrange, hfirst, (hown.position _ hspans.start_mem).2, hlast, hsticky⟩
  · intro g s e hse
    obtain ⟨h1, h2⟩ := Match.group?_eq_some.mp hse
    have hpaired : ∀ ws, ws = j.own ∨ ws ∈ j.inner → Paired ws g := fun ws hws =>
      let ⟨_, _, h⟩ := hparts ws hws
      h.paired g
    have hs := hleaves (2 * g) s h1
    have he := hleaves (2 * g + 1) e h2
    exact ⟨Nat.le_trans hfirst (hs.bounds hparts).1, Leaves.start_le hpaired hs he,
      (he.bounds hparts).2⟩
  · exact fun g hg => Match.isSome_start?_iff (hown.paired g) (houtside g hg)
  · intro g s e first' last' hg hse hfl
    cases hrange.symm.trans hfl
    obtain ⟨-, -, h1, h2⟩ := hown.bounds_of_spans ((hgroup g s e hg).mp hse)
    exact ⟨h1, h2⟩
  · intro o i s e s' e' hoi ho hi hso hsi
    obtain ⟨hlt, hends⟩ := hencloses o i hoi
    exact hown.nested o i s e s' e' hlt hends ((hgroup o s e ho).mp hso) ((hgroup i s' e' hi).mp hsi)

set_option maxRecDepth 100000 in
/-- Each iteration resets the groups inside: the innermost one does not keep the span that it had in
the first. -/
theorem execute_wellSpanned_nested : ∃ m t found,
    compile "(?=(a|b))(?:((a)|b)c)+" { sticky := true } {} Property.standard = .ok m ∧
      Pattern.parse "(?=(a|b))(?:((a)|b)c)+" { sticky := true } (Budget.clamp {})
        Property.standard = .ok t ∧
      m.execute "cacbcb".toList 1 = some found ∧
      found.groups = [some (1, 5), some (1, 2), some (3, 4), none] ∧
      found.groupCount = m.dfa.groups ∧ found.WellSpanned t true 1 6 := by
  obtain ⟨m, hm⟩ := exists_ok (x := compile "(?=(a|b))(?:((a)|b)c)+" { sticky := true } {}
    Property.standard) (by decide +kernel)
  obtain ⟨t, a, ht, -⟩ := compile_eq_ok_iff.mp hm
  have hgroups := of_toOption (P := fun m => (m.execute "cacbcb".toList 1).map Match.groups =
    some [some (1, 5), some (1, 2), some (3, 4), none]) (by decide +kernel) hm
  obtain ⟨found, hfound, hgroups⟩ := Option.map_eq_some_iff.mp hgroups
  obtain ⟨hcount, hspanned⟩ := execute_wellSpanned hm ht hfound
  exact ⟨m, t, found, hm, ht, hfound, hgroups, hcount, hspanned⟩

end Execute

end PatternAutomata
