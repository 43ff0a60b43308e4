import Mathlib.Data.Set.Card
import Mathlib.Data.Set.Finite.List
import Mathlib.Order.Interval.Finset.Nat
import PatternAutomata.Proofs.Compile
import PatternAutomata.Proofs.Dfa.Accepting
import PatternAutomata.Proofs.Dfa.InRange
import PatternAutomata.Proofs.Dfa.Interrupted
import PatternAutomata.Proofs.Dfa.Staying
import PatternAutomata.Proofs.Nfa.Onward
import PatternAutomata.Proofs.Pattern.Limits

/-!
# Traces stay short

A distance grows by one with every character that is consumed after a group was entered or left. So
it never exceeds the number of characters since the thread began, and, while no group loops, nor the
number of classes in the pattern. Hence distances never come near the largest one, no result reaches
back before the start of the input, and the construction has finitely many keys to number, whatever
its limit on the states.
-/

namespace PatternAutomata

/-! ## Distances -/

namespace RelativeCaptures

/-- No distance exceeds `k`. -/
def AtMost (k : Nat) (captures : RelativeCaptures) : Prop := ∀ e, some e ∈ captures → e ≤ k

variable {captures : RelativeCaptures} {b : Boundaries} {k l : Nat}

theorem atMost_fresh (groups k : Nat) : (fresh groups).AtMost k := by
  intro e he
  cases (Array.mem_replicate.mp he).2

theorem AtMost.mono (h : captures.AtMost k) (hkl : k ≤ l) : captures.AtMost l := by
  intro e he
  have := h e he
  omega

/-- What is recorded is here. -/
theorem AtMost.record (h : captures.AtMost k) : (captures.record b).AtMost k := by
  intro e he
  obtain ⟨i, hi, hget⟩ := Array.mem_iff_getElem.mp he
  simp only [RelativeCaptures.record, Boundaries.apply, Array.getElem_mapIdx] at hget
  split at hget
  · cases hget
    exact Nat.zero_le k
  · split at hget
    · cases hget
    · exact h e (hget ▸ Array.getElem_mem _)

/-- As long as distances are short, counting on loses none. -/
theorem AtMost.advance_eq (h : captures.AtMost k) (hk : k < maxDistance) :
    captures.advance b = (captures.record b).map (·.map (· + 1)) := by
  refine Array.map_congr_left fun e he => ?_
  cases e with
  | none => rfl
  | some e =>
    have hlt : e < maxDistance := Nat.lt_of_le_of_lt (h.record e he) hk
    rw [Option.bind_some, lengthen, if_pos hlt, Option.map_some]

theorem AtMost.advance (h : captures.AtMost k) : (captures.advance b).AtMost (k + 1) := by
  intro e he
  obtain ⟨old, hold, hnew⟩ := Array.mem_map.mp he
  obtain ⟨e', rfl, hlengthen⟩ := Option.bind_eq_some_iff.mp hnew
  unfold lengthen at hlengthen
  split at hlengthen
  · cases hlengthen
    exact Nat.succ_le_succ (h.record e' hold)
  · cases hlengthen

theorem size_advance : (captures.advance b).size = captures.size := by
  rw [RelativeCaptures.advance, Array.size_map, RelativeCaptures.record, Boundaries.size_apply]

end RelativeCaptures

/-! ## Runs with traces -/

namespace Nfa

/-- A way in which a match is being found, with its captures as distances back: it has begun after
`before`, and has consumed `since` from there. -/
inductive Traces (n : Nfa) (before : List Nat) : List Nat → State → RelativeCaptures → Prop
  | begin {atStart : Bool} (hstart : atStart = true → before = []) :
    Traces n before [] (n.initial (n.contextOf atStart (n.lookBehinds.afterCodes before)))
      (.fresh n.groupCount)
  | consume {since : List Nat} {s : State} {captures : RelativeCaptures} {ts : List Transition}
    {t : Transition} {main : NodeId} {lookAheads : List NodeId} {c : Nat}
    (h : Traces n before since s captures) (hts : n.transitions s = .ok ts) (ht : t ∈ ts)
    (htarget : t.target = .next main lookAheads) (hc : t.cls.contains c = true) :
    Traces n before (since ++ [c])
      { main, lookAheads
        context := n.contextOf false (n.lookBehinds.afterCodes (before ++ since ++ [c])) }
      (captures.advance t.boundaries)

namespace Traces

variable {n : Nfa} {before since : List Nat} {s : State} {captures : RelativeCaptures}

theorem atMost (h : n.Traces before since s captures) : captures.AtMost since.length := by
  induction h with
  | begin => exact RelativeCaptures.atMost_fresh _ _
  | consume _ _ _ _ _ ih =>
    rw [List.length_append, List.length_singleton]
    exact ih.advance

theorem size_captures (h : n.Traces before since s captures) :
    captures.size = 2 * n.groupCount := by
  induction h with
  | begin => exact Array.size_replicate
  | consume _ _ _ _ _ ih => rw [RelativeCaptures.size_advance, ih]

theorem arises (h : n.Traces before since s captures) : n.Arises s := by
  induction h with
  | begin => exact .initial _
  | consume _ hts ht htarget _ ih => exact .next ih hts ht htarget _

section LoopFree

variable (hn : n.tree.WellFormed) (hloops : n.tree.isLoopFree = true)
include hn hloops

theorem hasRoom (h : n.Traces before since s captures) : s.HasRoom n.tree since.length := by
  induction h with
  | begin => exact hasRoom_initial ..
  | consume h hts ht htarget _ ih =>
    rw [List.length_append, List.length_singleton]
    exact hasRoom_of_transitions hn hloops (h.arises.fits hn) ih hts ht htarget _

/-- No way consumes more characters than there are classes. -/
theorem length_le_classes (h : n.Traces before since s captures) :
    since.length ≤ n.tree.classes.length := (h.hasRoom hn hloops).count

theorem atMost_classes (h : n.Traces before since s captures) :
    captures.AtMost n.tree.classes.length := h.atMost.mono (h.length_le_classes hn hloops)

end LoopFree

end Traces

end Nfa

namespace Dfa

open Build

variable {n : Nfa}

/-! ## Threads that follow the text -/

/-- The thread has begun somewhere in the text, and has consumed the rest of it. -/
def Discovered.Follows (d : Discovered n) (w : List Nat) (t : Thread) : Prop :=
  ∃ before since s, w = before ++ since ∧ d.states.state? t.state = some s ∧
    n.Traces before since s t.captures

section Follows

variable {d d' : Discovered n} {w : List Nat} {t : Thread} {threads : List Thread}

theorem Discovered.Follows.mono (h : d.Follows w t) (hd : d.Extends d') : d'.Follows w t := by
  obtain ⟨before, since, s, hw, hs, htraces⟩ := h
  exact ⟨before, since, s, hw, hd.states _ _ hs, htraces⟩

variable (htraced : d.traced? = some n.groupCount)
include htraced

theorem follows_of_begins {atStart : Bool}
    (ht : d.Begins (n.contextOf atStart (n.lookBehinds.afterCodes w)) t)
    (hstart : atStart = true → w = []) : d.Follows w t := by
  refine ⟨w, [], _, (List.append_nil w).symm, ht.state, ?_⟩
  rw [ht.captures, htraced]
  exact .begin hstart

/-- The threads that arrive on a character have followed the text up to it, or begin after it. -/
theorem follows_of_realized (hfollows : ∀ t ∈ threads, d.Follows w t) {moves : List Move}
    (hmoves : MovesOf d 0 threads moves) {injecting : Bool} {c : Nat} {ts : List Thread}
    {us : List SlotUpdate}
    (hs : Realized d (arrived n moves injecting (n.lookBehinds.afterCodes w) c) ts us) :
    ∀ t ∈ ts, d.Follows (w ++ [c]) t := by
  intro t ht
  obtain ⟨a, ha, u, hreal⟩ := hs.mem_thread ht
  have hcaptures := (hreal.traced _ htraced).2
  rcases exists_of_mem_arrived ha with rfl | ⟨m, hm, hc, main, lookAheads, htarget, rfl⟩
  · have hbegins : d.Begins (n.contextOf false (n.lookBehinds.afterCodes (w ++ [c]))) t := by
      rw [LookBehindTable.afterCodes_append_singleton]
      exact ⟨hreal.state, hcaptures.trans (by rw [htraced]; rfl)⟩
    exact follows_of_begins htraced hbegins nofun
  · obtain ⟨before, since, s, rfl, hstate, htraces⟩ := hfollows _ (hmoves.mem hm)
    obtain ⟨s', ts, hstate', hts, htransition⟩ := hmoves.exists_transitions hm
    obtain rfl : s = s' := Option.some_inj.mp (hstate.symm.trans hstate')
    refine ⟨before, since ++ [c], _, List.append_assoc .., hreal.state, ?_⟩
    rw [hcaptures, ← LookBehindTable.afterCodes_append_singleton]
    exact htraces.consume hts htransition htarget hc

end Follows

/-- With traces, the threads have followed some text that the tracker has read. -/
def Followed (d : Discovered n) (threads : List Thread) (_ : Bool) (tracker : BitSet) : Prop :=
  d.traced? = some n.groupCount →
    ∃ w, tracker = n.lookBehinds.afterCodes w ∧ ∀ t ∈ threads, d.Follows w t

theorem keyInvariant_followed (p : Plan) : KeyInvariant p (Followed (n := n)) where
  mono h hd htraced := by
    obtain ⟨w, hw, hthreads⟩ := h (hd.traced ▸ htraced)
    exact ⟨w, hw, fun t ht => (hthreads t ht).mono hd⟩
  root ht hstart htraced :=
    ⟨_, rfl, List.forall_mem_singleton.mpr (follows_of_begins htraced ht fun h => (hstart h).2)⟩
  step h hmoves _ hs _ _ htraced := by
    obtain ⟨w, rfl, hthreads⟩ := h htraced
    refine ⟨w ++ [_], (LookBehindTable.afterCodes_append_singleton ..).symm, fun t ht => ?_⟩
    exact follows_of_realized htraced hthreads hmoves hs t (List.mem_reverse.mp ht)

theorem pathInvariant_follows (p : Plan) {d : Discovered n}
    (htraced : d.traced? = some n.groupCount) : PathInvariant p d (Key.After n d.Follows) :=
  pathInvariant_of_threads (follows_of_begins htraced) fun hthreads hmoves hs =>
    follows_of_realized htraced hthreads hmoves hs

section Keys

variable {p : Plan} {d₀ d : Discovered n} {i : StateId} {k : Key} {t : Thread}
  (htraced : d.traced? = some n.groupCount) (hi : d.keys.get? i = some k) (ht : t ∈ k.threads)
include htraced hi ht

theorem follows_of_sound (h : Sound p (Followed (n := n)) d₀ d) : ∃ w, d.Follows w t := by
  cases k with
  | dead | lead => cases ht
  | search threads injecting tracker =>
    obtain ⟨w, -, hthreads⟩ := h.keys i threads injecting tracker hi htraced
    exact ⟨w, hthreads t ht⟩

theorem follows_of_reads {a : Dfa} (h : Begun p d a) {w : List Nat} (hw : a.Reads i w) :
    d.Follows w t := by
  obtain ⟨k', hk', hfollows⟩ := h.of_reads (pathInvariant_follows p htraced) hw
  obtain rfl : k = k' := Option.some_inj.mp (hi.symm.trans hk')
  cases k with
  | dead | lead => cases ht
  | search threads injecting tracker => exact hfollows.2 t ht

end Keys

/-! ## What a search resolves -/

/-- The match names a result, and no distance in it reaches back before the start of the input. -/
def AcceptsWithin (a : Dfa) (x : Accept × Nat) : Prop :=
  ∃ (i : Nat) (results : Array RelativeCaptures) (captures : RelativeCaptures), x.1 = .result i ∧
    a.results = some results ∧ results[i]? = some captures ∧ captures.AtMost x.2

section Built

variable {p : Plan} {d : Discovered n} {a : Dfa} {id : StateId} {threads : List Thread}
  {injecting : Bool} {w : List Nat} (hb : Built p d a) (htraced : d.traced? = some n.groupCount)
include hb htraced

theorem acceptsWithin_of_reports {m : Move} {x : Accept} (hm : d.Follows w m.thread)
    (h : Reports d m x) : a.AcceptsWithin (x, w.length) := by
  obtain ⟨before, since, s, rfl, -, htraces⟩ := hm
  obtain ⟨i, rfl, hi⟩ := h.traced _ htraced
  obtain ⟨finder, hfinder, hget⟩ := Option.bind_eq_some_iff.mp hi
  refine ⟨i, finder.results.items, _, rfl, by rw [hb.results, hfinder]; rfl, hget, ?_⟩
  apply htraces.atMost.record.mono
  rw [List.length_append]
  omega

/-- What reports the match of a move, if there is one. -/
theorem acceptsWithin_of_match {found : Option Move} {accept : Option Accept}
    (h : match found with
      | none => accept = none
      | some m => ∃ x, accept = some x ∧ Reports d m x)
    (hfound : ∀ m, found = some m → d.Follows w m.thread) :
    ∀ x ∈ accept.toList.map (·, w.length), a.AcceptsWithin x := by
  cases found with
  | none =>
    obtain rfl : accept = none := h
    exact List.forall_mem_nil _
  | some m =>
    obtain ⟨x, rfl, hreports⟩ := h
    exact List.forall_mem_singleton.mpr (acceptsWithin_of_reports hb htraced (hfound m rfl) hreports)

theorem acceptsWithin_scan (rest : List Char)
    (hk : d.keys.get? id = some (.search threads injecting (n.lookBehinds.afterCodes w)))
    (hthreads : ∀ t ∈ threads, d.Follows w t) :
    ∀ x ∈ a.scanAccepts id w.length rest, a.AcceptsWithin x := by
  induction rest generalizing id threads injecting w with
  | nil =>
    obtain ⟨moves, hs⟩ := hb.expands id _ hk
    unfold scanAccepts
    exact acceptsWithin_of_match hb htraced hs.endAccept fun m hm =>
      hthreads _ (hs.ofThreads.mem (List.mem_of_find?_eq_some hm))
  | cons c rest ih =>
    obtain ⟨moves, hs⟩ := hb.expands id _ hk
    obtain ⟨o, hleads, ho⟩ := hs.transitions c.toNat (toNat_le_maxCodePoint c)
    unfold scanAccepts
    cases ht : (a.state id).transition? c.toNat with
    | none => exact List.forall_mem_nil _
    | some t =>
      rw [ht, Option.map_some] at ho
      split at ho
      · cases ho
      cases ho
      simp only
      refine List.forall_mem_append.mpr ⟨?_, ?_⟩
      · exact acceptsWithin_of_match hb htraced hleads.accept fun m hm =>
          hthreads _ (hs.ofThreads.mem (List.mem_of_mem_filter (List.mem_of_find?_eq_some hm)))
      · obtain ⟨ts, us, hreal, -, ⟨-, hdead⟩ | ⟨-, hkey⟩⟩ := hleads.target
        · rw [if_pos (show t.target = dead from hdead)]
          exact List.forall_mem_nil _
        · split
          · exact List.forall_mem_nil _
          rw [← LookBehindTable.afterCodes_append_singleton] at hkey
          have hnext := ih hkey fun t ht => follows_of_realized htraced hthreads hs.ofThreads hreal t
            (List.mem_reverse.mp ht)
          rwa [List.length_append, List.length_singleton] at hnext

/-- Of all matches that a search comes to, the distances reach back to the start of the input at
most. -/
theorem acceptsWithin_search (hl : n.lookBehinds.LaidOut) (input : List Char) (start : Nat) :
    ∀ x ∈ a.searchAccepts input start, a.AcceptsWithin x := by
  unfold searchAccepts
  split
  · rename_i hstart
    obtain ⟨t, hk, hs, hc⟩ := rootKey_startState hb hl (input.take start)
    rw [LookBehindTable.after_eq] at hk hs
    have hlength : ((input.take start).map Char.toNat).length = start := by
      rw [List.length_map, List.length_take, Nat.min_eq_left hstart]
    have hthread := follows_of_begins htraced ⟨hs, hc⟩ fun h => by
      rw [Bool.and_eq_true_iff, List.isEmpty_iff] at h
      rw [h.1, List.map_nil]
    have hscan := acceptsWithin_scan hb htraced (input.drop start) hk
      (List.forall_mem_singleton.mpr hthread)
    rwa [hlength] at hscan
  · exact List.forall_mem_nil _

end Built

/-- The same holds of a compiled pattern with traces, also when its loops were split. -/
theorem acceptsWithin_of_compile {pattern : String} {flags : Flags} {budget : Budget}
    {properties : PropertyLookup} {m : Matcher}
    (hm : compile pattern flags budget properties = .ok m) (htraced : m.dfa.isTraced = true)
    (input : List Char) (start : Nat) :
    ∀ x ∈ m.dfa.searchAccepts input start, m.dfa.AcceptsWithin x := by
  obtain ⟨t, a, -, ha, rfl⟩ := compile_eq_ok_iff.mp hm
  obtain ⟨n, hn, ha⟩ := bind_eq_ok.mp ha
  obtain ⟨a', ha', hsplit⟩ := bind_eq_ok.mp ha
  cases hsplit
  obtain ⟨p, d, hb, -, -, hg⟩ := determinize_built ha'
  have hsame : (splitIfPossible a' budget.clamp).results = a'.results ∧
      ∀ input start, (splitIfPossible a' budget.clamp).searchAccepts input start =
        a'.searchAccepts input start := by
    unfold splitIfPossible
    split
    · cases hsplit : a'.splitLoops budget.clamp.maxSplitDfaSize with
      | error b => exact ⟨rfl, fun _ _ => rfl⟩
      | ok a'' => exact accepts_splitLoops hb.closed hsplit
    · exact ⟨rfl, fun _ _ => rfl⟩
  have hgroups : d.traced? = some n.groupCount := by
    have htraced' : a'.isTraced = true := (congrArg Option.isSome hsame.1.symm).trans htraced
    obtain ⟨groups, hgroups⟩ := Option.isSome_iff_exists.mp (hb.isTraced_eq.symm.trans htraced')
    rw [hgroups, hg groups hgroups]
  intro x hx
  rw [hsame.2] at hx
  obtain ⟨i, results, captures, hresult, hresults, hwithin⟩ :=
    acceptsWithin_search hb hgroups (Nfa.laidOut_of_ofTree hn) input start x hx
  exact ⟨i, results, captures, hresult, hsame.1.trans hresults, hwithin⟩

/-! ## Finitely many keys -/

/-- The key is made of these trackers, and of at most `count` of these threads. -/
inductive Key.MadeOf (ts : Set Thread) (trackers : Set BitSet) (count : Nat) : Key → Prop
  | dead : MadeOf ts trackers count .dead
  | lead {tracker : BitSet} (h : tracker ∈ trackers) : MadeOf ts trackers count (.lead tracker)
  | search {threads : List Thread} {injecting : Bool} {tracker : BitSet}
    (hcount : threads.length ≤ count) (hthreads : ∀ t ∈ threads, t ∈ ts) (h : tracker ∈ trackers) :
    MadeOf ts trackers count (.search threads injecting tracker)

theorem finite_lists {α : Type} {S : Set α} (hS : S.Finite) (count : Nat) :
    {l : List α | l.length ≤ count ∧ ∀ a ∈ l, a ∈ S}.Finite := by
  have := hS.to_subtype
  refine ((List.finite_length_le S count).image (List.map Subtype.val)).subset ?_
  rintro l ⟨hlength, hl⟩
  lift l to List S using hl
  exact ⟨l, by simpa using hlength, rfl⟩

theorem finite_keys {ts : Set Thread} {trackers : Set BitSet} (hts : ts.Finite)
    (htrackers : trackers.Finite) (count : Nat) : {k | Key.MadeOf ts trackers count k}.Finite := by
  have hsearch := (finite_lists hts count).image2 (fun threads x => Key.search threads x.1 x.2)
    (Set.finite_univ (α := Bool) |>.prod htrackers)
  refine (((Set.finite_singleton Key.dead).union (htrackers.image Key.lead)).union hsearch).subset ?_
  rintro k (_ | h | ⟨hcount, hthreads, h⟩)
  · exact .inl (.inl rfl)
  · exact .inl (.inr ⟨_, h, rfl⟩)
  · exact .inr ⟨_, ⟨hcount, hthreads⟩, (_, _), ⟨Set.mem_univ _, h⟩, rfl⟩

/-- The threads whose captures are short. -/
def shortThreads (n : Nfa) (k : Nat) : Set Thread :=
  {t | t.state < n.maxStates ∧ t.captures.size ≤ 2 * n.groupCount ∧ t.captures.AtMost k}

theorem finite_shortThreads (n : Nfa) (k : Nat) : (shortThreads n k).Finite := by
  have hentries : (insert none (some '' Set.Iic k)).Finite := ((Set.finite_Iic k).image _).insert _
  refine ((Set.finite_Iio n.maxStates).image2 (fun i (l : List (Option Nat)) => Thread.mk i l.toArray)
    (finite_lists hentries (2 * n.groupCount))).subset ?_
  rintro ⟨i, captures⟩ ⟨hi, hsize, hshort⟩
  refine ⟨i, hi, captures.toList, ⟨by simpa using hsize, fun e he => ?_⟩, rfl⟩
  cases e with
  | none => exact .inl rfl
  | some e => exact .inr ⟨e, hshort e (Array.mem_toList_iff.mp he), rfl⟩

theorem finite_trackers {t : LookBehindTable} (h : t.LaidOut) : (Set.range t.afterCodes).Finite := by
  obtain ⟨bound, hbound⟩ : ∃ bound, ∀ e ∈ t.entries, e.offset + e.classes.length < bound :=
    ⟨(t.entries.map fun e => e.offset + e.classes.length).max?.getD 0 + 1, fun e he =>
      Nat.lt_succ_of_le (List.le_max?_getD_of_mem (List.mem_map_of_mem he))⟩
  refine ((Set.finite_Iio (2 ^ bound)).image BitSet.mk).subset ?_
  rintro _ ⟨w, rfl⟩
  refine ⟨_, Nat.lt_pow_two_of_testBit _ fun b hb => ?_, rfl⟩
  rw [Bool.eq_false_iff]
  intro hbit
  obtain ⟨e, he, k, hk, rfl, -⟩ := (LookBehindTable.contains_afterCodes h w b).mp hbit
  have := hbound e he
  omega

/-- The numbered values are as many as their set at most. -/
theorem size_le_ncard {α : Type} [DecidableEq α] [Coded α] {t : Interner α} {S : Set α}
    (hS : S.Finite) (h : ∀ i a, t.get? i = some a → a ∈ S) : t.size ≤ S.ncard := by
  have hsub : (t.items.toList.toFinset : Set α) ⊆ S := by
    intro a ha
    obtain ⟨i, hi, rfl⟩ := List.mem_iff_getElem.mp (List.mem_toFinset.mp ha)
    exact h i _ (by simp [Interner.get?])
  have hcard := Set.ncard_le_ncard hsub hS
  rwa [Set.ncard_coe_finset, List.toFinset_card_of_nodup t.nodup, Array.length_toList] at hcard

section LoopFree

variable (hn : n.tree.WellFormed) (hloops : n.tree.isLoopFree = true)
include hn hloops

theorem mem_shortThreads {d : Discovered n} {w : List Nat} {t : Thread} (h : d.Follows w t) :
    t ∈ shortThreads n n.tree.classes.length := by
  obtain ⟨before, since, s, -, hs, htraces⟩ := h
  exact ⟨Nat.lt_of_lt_of_le (Interner.lt_size hs) d.states.size_le, Nat.le_of_eq htraces.size_captures,
    htraces.atMost_classes hn hloops⟩

/-- Whatever the limit on the states, the keys of a construction with traces are made of short
threads, and so there are finitely many. -/
theorem exists_keys_bound (hl : n.lookBehinds.LaidOut) (maxThreads : Nat) :
    ∃ bound, ∀ (p : Plan) (d₀ d : Discovered n), p.maxThreads = maxThreads →
      Sound p (Followed (n := n)) d₀ d → d.traced? = some n.groupCount → d.keys.size ≤ bound := by
  have hfinite := finite_keys (finite_shortThreads n n.tree.classes.length) (finite_trackers hl)
    (max 1 maxThreads)
  refine ⟨_, fun p d₀ d hp h htraced => size_le_ncard hfinite fun i k hi => ?_⟩
  cases k with
  | dead => exact .dead
  | lead tracker =>
    obtain ⟨w, rfl⟩ := h.leads i tracker hi
    exact .lead ⟨w, rfl⟩
  | search threads injecting tracker =>
    obtain ⟨w, rfl, hthreads⟩ := h.keys i threads injecting tracker hi htraced
    exact .search (hp ▸ (h.valid.keys i _ hi).count)
      (fun t ht => mem_shortThreads hn hloops (hthreads t ht)) ⟨w, rfl⟩

end LoopFree

/-- Let no group of a pattern loop. No distance in the captures of a thread exceeds the number of
characters that the thread has consumed, nor the number of classes in the pattern, and so none is lost by
counting on. This holds of every thread of every key that a construction with traces numbers, after any
text that leads to the key. There are finitely many such keys, whatever the limit on the states, and
with enough fuel all of them get a state; the whole construction is the one up to `maxStates + 1` states
(`dfa_eq_upTo`). No distance that a compiled pattern resolves exceeds the position in the input, and the
last match that is resolved is the one that is found. -/
theorem traces_stay_short {pattern : String} {flags : Flags} {budget : Budget}
    {properties : PropertyLookup} {tree : Tree}
    (ht : Pattern.parse pattern flags budget.clamp properties = .ok tree)
    (hn : Nfa.ofTree tree flags.multiline budget.clamp.maxNfaSize = .ok n)
    (hloops : tree.isLoopFree = true) :
    (∀ before since s captures, n.Traces before since s captures →
      captures.AtMost since.length ∧ captures.AtMost tree.classes.length ∧
        ∀ b, captures.advance b = (captures.record b).map (·.map (· + 1))) ∧
    (∃ bound, ∀ (states : Nfa.States n) (maxStates fuel : Nat),
      let p : Plan := ⟨flags.sticky, .traceFinder, maxStates, budget.clamp.maxThreads⟩
      let run := (upTo p fuel).run.run (Discovered.start states
        (some (TraceFinder.new n.groupCount budget.clamp.maxTraceResults)))
      run.2.keys.size ≤ bound ∧
      (∀ a, run.1 = .ok a → bound ≤ fuel → a.size = run.2.keys.size) ∧
      ∀ i k, run.2.keys.get? i = some k → ∀ t ∈ k.threads,
        (∃ w, run.2.Follows w t) ∧ ∀ a, run.1 = .ok a → ∀ w, a.Reads i w → run.2.Follows w t) ∧
    ∀ m, compile pattern flags budget properties = .ok m → m.dfa.isTraced = true → ∀ input start,
      (∀ x ∈ m.dfa.searchAccepts input start, m.dfa.AcceptsWithin x) ∧
        m.dfa.search input start = m.dfa.lastResult (m.dfa.searchAccepts input start) none := by
  obtain rfl := Nfa.tree_of_ofTree hn
  have hwell := Pattern.wellFormed_parse ht
  have hlong : n.tree.classes.length < RelativeCaptures.maxDistance := by
    have hclasses := n.tree.length_classes_le_size
    have hsize := (Pattern.size_le_of_parse _ _ _ ht).trans (Nat.min_le_right _ Budget.maxIndex)
    have hmax : Budget.maxIndex < RelativeCaptures.maxDistance := by decide
    omega
  refine ⟨fun before since s captures h => ?_, ?_, fun m hm htraced input start => ?_⟩
  · have hshort := h.atMost_classes hwell hloops
    exact ⟨h.atMost, hshort, fun b => hshort.advance_eq hlong⟩
  · obtain ⟨bound, hbound⟩ := exists_keys_bound hwell hloops (Nfa.laidOut_of_ofTree hn)
      budget.clamp.maxThreads
    refine ⟨bound, fun states maxStates fuel => ?_⟩
    intro p run
    have hsound := (keyInvariant_followed (n := n) p).sound_of_run states
      (some (TraceFinder.new n.groupCount budget.clamp.maxTraceResults)) fuel
    have htraced : run.2.traced? = some n.groupCount := hsound.later.traced
    have hkeys := hbound p _ _ rfl hsound htraced
    refine ⟨hkeys, fun a ha hfuel => ?_, fun i k hi t ht => ⟨follows_of_sound htraced hi ht hsound,
      fun a ha w hw => follows_of_reads htraced hi ht (begun_of_gives (Prod.ext ha rfl)).1 hw⟩⟩
    obtain ⟨hbegun, hshort, -⟩ := begun_of_gives (Prod.ext ha rfl)
    refine Nat.le_antisymm hbegun.size (Nat.le_of_not_lt fun hlt => ?_)
    have hsize : a.states.size < fuel := Nat.lt_of_lt_of_le hlt (hkeys.trans hfuel)
    exact absurd (hshort hlt) (Nat.ne_of_lt hsize)
  · have hwithin := acceptsWithin_of_compile hm htraced input start
    exact ⟨hwithin, search_eq_lastResult fun x hx =>
      let ⟨i, _, _, hresult, _⟩ := hwithin x hx
      ⟨i, hresult⟩⟩

set_option maxRecDepth 100000 in
/-- The look-ahead outlives the first alternative. Meanwhile a match of the second one is found, which is
replaced later. A thread has its longest distance, of three characters, after all of the text. -/
theorem traces_stay_short_lookAhead :
    let pattern := "(?=(a)bc)(a)|b"
    let budget : Budget := {}
    ∃ tree n m a d k t, Pattern.parse pattern {} budget.clamp Property.standard = .ok tree ∧
      Nfa.ofTree tree false budget.clamp.maxNfaSize = .ok n ∧ tree.isLoopFree = true ∧
      tree.classes.length = 5 ∧
      (∀ before since s captures, n.Traces before since s captures → captures.AtMost 5) ∧
      Gives (upTo (n := n) ⟨false, .traceFinder, 3000, 255⟩ 50) (Discovered.start .empty
        (some (TraceFinder.new n.groupCount budget.clamp.maxTraceResults))) a d ∧
      d.keys.size = 7 ∧ d.keys.get? 6 = some k ∧ t ∈ k.threads ∧ some 3 ∈ t.captures ∧
      a.Reads 6 [97, 98, 99] ∧ d.Follows [97, 98, 99] t ∧
      compile pattern {} budget Property.standard = .ok m ∧ m.dfa.isTraced = true ∧
      m.dfa.searchAccepts "xabc".toList 1 = [(.result 0, 3), (.result 1, 4)] ∧
      m.dfa.AcceptsWithin (.result 0, 3) ∧ m.dfa.AcceptsWithin (.result 1, 4) ∧
      m.dfa.search "xabc".toList 1 = some (m.dfa.resolve (.result 1) #[] 4) := by
  intro pattern budget
  obtain ⟨tree, htree⟩ := exists_ok (x := Pattern.parse pattern {} budget.clamp Property.standard)
    (by decide +kernel)
  obtain ⟨n, hn⟩ := exists_ok (x := Nfa.ofTree tree false budget.clamp.maxNfaSize)
    (of_toOption (P := fun tree => (Nfa.ofTree tree false budget.clamp.maxNfaSize).isOk)
      (by decide +kernel) htree)
  obtain ⟨hloops, hclasses⟩ := of_toOption
    (P := fun tree => tree.isLoopFree = true ∧ tree.classes.length = 5) (by decide +kernel) htree
  obtain ⟨m, hm⟩ := exists_ok (x := compile pattern {} budget Property.standard) (by decide +kernel)
  obtain ⟨htraced, haccepts⟩ := of_toOption (P := fun m => m.dfa.isTraced = true ∧
    m.dfa.searchAccepts "xabc".toList 1 = [(.result 0, 3), (.result 1, 4)]) (by decide +kernel) hm
  have hcheck := of_toOption (P := fun tree =>
    ∀ n ∈ (Nfa.ofTree tree false budget.clamp.maxNfaSize).toOption,
      let run := (upTo (n := n) ⟨false, .traceFinder, 3000, 255⟩ 50).run.run (Discovered.start .empty
        (some (TraceFinder.new n.groupCount budget.clamp.maxTraceResults)))
      run.1.isOk ∧ run.2.keys.size = 7 ∧
        (∃ k ∈ run.2.keys.get? 6, k.threads.any (·.captures.contains (some 3)) = true) ∧
        ∀ a ∈ run.1.toOption, ((a.state a.rootStart).transition? 97).map (·.target) = some 3 ∧
          ((a.state 3).transition? 98).map (·.target) = some 5 ∧
          ((a.state 5).transition? 99).map (·.target) = some 6)
    (by decide +kernel) htree n (by rw [hn]; rfl)
  obtain ⟨hshort, ⟨_, hbound⟩, hsearch⟩ := traces_stay_short htree hn hloops
  obtain ⟨-, -, hfollows⟩ := hbound .empty 3000 50
  rcases hrun : (upTo (n := n) ⟨false, .traceFinder, 3000, 255⟩ 50).run.run (Discovered.start .empty
    (some (TraceFinder.new n.groupCount budget.clamp.maxTraceResults))) with ⟨r, d⟩
  simp only [hrun] at hcheck
  rw [show upTo (n := n) ⟨Flags.sticky {}, .traceFinder, 3000, budget.clamp.maxThreads⟩ 50 =
    upTo (n := n) ⟨false, .traceFinder, 3000, 255⟩ 50 from rfl, hrun] at hfollows
  obtain ⟨hok, hsize, ⟨k, hk, hany⟩, hsteps⟩ := hcheck
  obtain ⟨t, ht, hthree⟩ := List.any_eq_true.mp hany
  obtain ⟨a, rfl⟩ := exists_ok hok
  obtain ⟨h1, h2, h3⟩ := hsteps a rfl
  obtain ⟨t1, ht1, htarget1⟩ := Option.map_eq_some_iff.mp h1
  obtain ⟨t2, ht2, htarget2⟩ := Option.map_eq_some_iff.mp h2
  obtain ⟨t3, ht3, htarget3⟩ := Option.map_eq_some_iff.mp h3
  have hreads1 : a.Reads 3 [97] := htarget1 ▸ .next .rootStart (by decide) ht1
  have hreads2 : a.Reads 5 [97, 98] := htarget2 ▸ hreads1.next (by decide) ht2
  have hreads3 : a.Reads 6 [97, 98, 99] := htarget3 ▸ hreads2.next (by decide) ht3
  obtain ⟨hwithin, hlast⟩ := hsearch m hm htraced "xabc".toList 1
  rw [haccepts] at hwithin hlast
  exact ⟨tree, n, m, a, d, k, t, htree, hn, hloops, hclasses,
    fun before since s captures h => hclasses ▸ (hshort before since s captures h).2.1, hrun, hsize, hk,
    ht, Array.contains_iff_mem.mp hthree, hreads3, (hfollows 6 k hk t ht).2 a rfl _ hreads3, hm,
    htraced, haccepts, hwithin _ (by simp), hwithin _ (by simp), hlast⟩

end Dfa

end PatternAutomata
