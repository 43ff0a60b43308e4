import PatternAutomata.Compile
import PatternAutomata.Proofs.Dfa.Scan
import PatternAutomata.Proofs.Nfa.Observing
import PatternAutomata.Proofs.Pattern.Reader

/-!
# Reading the characters before a search

A search that does not begin at the start of the input first reads the last characters before it, as
many as the longest body of a look-behind has. `startState_observes` says that this is enough: the
search then begins with the only thread that may begin there, in the context of all that stands
before, as if the input had been read from its start.
-/

namespace PatternAutomata.Dfa

/-- From state `i` the transitions on the characters of a text lead to state `j`. -/
inductive Follows (a : Dfa) : StateId → List Char → StateId → Prop
  | nil (i : StateId) : Follows a i [] i
  | cons {i j : StateId} {c : Char} {w : List Char} {t : Transition}
      (ht : (a.state i).transition? c.toNat = some t) (h : Follows a t.target w j) :
      Follows a i (c :: w) j

section Lead

open Build

variable {n : Nfa} {p : Plan} {d : Discovered n} {a : Dfa} {i j : StateId} {before w : List Char}

theorem Follows.foldl_eq (h : a.Follows i w j) {read : StateId → Char → StateId}
    (hread : ∀ id c, read id c = ((a.state id).transition? c.toNat).elim id Transition.target) :
    w.foldl read i = j := by
  induction h with
  | nil => rfl
  | cons ht _ ih => rw [List.foldl_cons, hread, ht, Option.elim_some, ih]

/-- If there is anything to look for, every character leads on from a state that reads ahead, to the
state for the tracker that has seen it. -/
theorem exists_follows (hb : Built p d a) (he : n.lookBehinds.isEmpty = false)
    (hi : d.keys.get? i = some (.lead (n.lookBehinds.after before))) (w : List Char) :
    ∃ j, a.Follows i w j ∧ d.keys.get? j = some (.lead (n.lookBehinds.after (before ++ w))) := by
  induction w generalizing i before with
  | nil => exact ⟨i, .nil i, by simpa using hi⟩
  | cons c w ih =>
    have hx : ReadsAhead p d (n.lookBehinds.after before) (a.state i) := hb.expands i _ hi
    have htransitions := hx.transitions
    rw [if_neg (by simp [he])] at htransitions
    obtain ⟨t, ht, hkey⟩ := htransitions c.toNat (toNat_le_maxCodePoint c)
    rw [← LookBehindTable.after_append_singleton] at hkey
    obtain ⟨j, hj, hj'⟩ := ih hkey
    refine ⟨j, .cons ht hj, ?_⟩
    rwa [List.append_assoc, List.singleton_append] at hj'

theorem maxLength_of_isEmpty {t : LookBehindTable} (h : t.isEmpty = true) : t.maxLength = 0 := by
  have hentries : t.entries = [] := List.isEmpty_iff.mp h
  rw [LookBehindTable.maxLength, hentries]
  rfl

/-- The last characters before a search lead to the state for the tracker that has seen all of
them. -/
theorem exists_follows_rootMid (hb : Built p d a) (hl : n.lookBehinds.LaidOut) (before : List Char) :
    ∃ i, a.Follows a.rootMid (before.drop (before.length - a.leadLength)) i ∧
      d.keys.get? i = some (.lead (n.lookBehinds.after before)) := by
  have hmid : d.keys.get? a.rootMid = some (.lead (n.lookBehinds.after [])) := hb.rootMid
  rw [hb.leadLength]
  cases he : n.lookBehinds.isEmpty with
  | true =>
    rw [maxLength_of_isEmpty he, Nat.sub_zero, List.drop_length, LookBehindTable.after_of_isEmpty he]
    exact ⟨a.rootMid, .nil _, hmid⟩
  | false =>
    obtain ⟨i, hi, hkey⟩ :=
      exists_follows hb he hmid (before.drop (before.length - n.lookBehinds.maxLength))
    rw [List.nil_append, LookBehindTable.after_drop hl] at hkey
    exact ⟨i, hi, hkey⟩

/-- Reading all characters from the start of the input leads to the same state. -/
theorem follows_all (hb : Built p d a) (hl : n.lookBehinds.LaidOut)
    (he : n.lookBehinds.isEmpty = false)
    (hi : a.Follows a.rootMid (before.drop (before.length - a.leadLength)) i) :
    a.Follows a.rootMid before i := by
  have hmid : d.keys.get? a.rootMid = some (.lead (n.lookBehinds.after [])) := hb.rootMid
  obtain ⟨i', hi', hkey'⟩ := exists_follows_rootMid hb hl before
  obtain rfl := hi.foldl_eq (fun _ _ => rfl) |>.symm.trans (hi'.foldl_eq fun _ _ => rfl)
  obtain ⟨j, hj, hkey⟩ := exists_follows hb he hmid before
  rw [List.nil_append] at hkey
  rwa [Interner.get?_inj hkey hkey'] at hj

theorem startState_eq (hbefore : before ≠ [])
    (hi : a.Follows a.rootMid (before.drop (before.length - a.leadLength)) i) {entry : StateId}
    (hentry : (a.state i).entry = some entry) : a.startState before = entry := by
  unfold startState
  rw [if_neg (by simpa using hbefore)]
  simp only
  rw [hi.foldl_eq fun _ _ => rfl, hentry, Option.getD_some]

end Lead

/-- A search reads of the text before it only what the longest body can reach. -/
theorem search_congr_left (a : Dfa) {input input' : List Char} {start : Nat} (hstart : 0 < start)
    (hlength : input'.length = input.length)
    (h : input'.drop (start - a.leadLength) = input.drop (start - a.leadLength)) :
    a.search input' start = a.search input start := by
  unfold search
  rw [hlength]
  split
  · rename_i hle
    have hrest : input'.drop start = input.drop start := by
      have := congrArg (List.drop (start - (start - a.leadLength))) h
      rwa [List.drop_drop, List.drop_drop, Nat.add_sub_cancel' (Nat.sub_le ..)] at this
    have hlast : ∀ l : List Char, start ≤ l.length →
        (l.take start).drop ((l.take start).length - a.leadLength) =
          (l.drop (start - a.leadLength)).take (start - (start - a.leadLength)) := by
      intro l hl
      rw [List.length_take, Nat.min_eq_left hl, List.drop_take]
    have hnonempty : ∀ l : List Char, start ≤ l.length → (l.take start).isEmpty = false := by
      intro l hl
      rw [List.isEmpty_eq_false_iff, ← List.length_pos_iff, List.length_take]
      omega
    unfold startState
    rw [hnonempty input hle, hnonempty input' (hlength ▸ hle), hlast input hle,
      hlast input' (hlength ▸ hle), h, hrest]
  · rfl

theorem leadLength_splitIfPossible (a : Dfa) (budget : Budget) :
    (splitIfPossible a budget).leadLength = a.leadLength := by
  unfold splitIfPossible
  split
  · cases hsplit : a.splitLoops budget.maxSplitDfaSize with
    | error b => rfl
    | ok a' =>
      obtain ⟨s, -, heq⟩ := bind_eq_ok.mp hsplit
      cases heq
      rfl
  · rfl

section Search

variable {pattern : String} {flags : Flags} {budget : Budget} {properties : PropertyLookup}
  {tree : Tree} {multiline : Bool} {maxStates : Nat} {n : Nfa} {states : Nfa.States n} {p : Plan}
  {tracer : Option TraceFinder} {a : Dfa} {d : Discovered n}

/-- A search from the middle of the input starts in the entry of the state to which the last
characters before it lead. Its only thread has consumed nothing; the tracker and the context are
those after the whole text before the search, and tell all that the pattern asks about that text. So
what stands further left than the last characters has no influence. -/
theorem startState_observes (ht : Pattern.parse pattern flags budget properties = .ok tree)
    (hn : Nfa.ofTree tree multiline maxStates = .ok n)
    (ha : Build.Gives (Build.dfa p) (Discovered.start states tracer) a d) {input : List Char}
    {start : Nat} (hpos : 0 < start) (hstart : start ≤ input.length) :
    let before := input.take start
    let tracker := n.lookBehinds.after before
    let context : Context := { atStart := false, satisfied := n.lookBehinds.satisfied tracker }
    (∃ i entry thread, a.Follows a.rootMid (before.drop (start - a.leadLength)) i ∧
      (n.lookBehinds.isEmpty = false → a.Follows a.rootMid before i) ∧
      (a.state i).entry = some entry ∧ a.startState before = entry ∧
      d.keys.get? entry = some (.search [thread] (!p.sticky) tracker) ∧
      d.states.state? thread.state = some (n.initial context)) ∧
    (∀ k, context.satisfied.contains k = true ↔
      ∃ e, n.lookBehinds.entries[k]? = some e ∧ Subject.endsIn before e.classes = true) ∧
    n.Observes ⟨multiline, input⟩ start context ∧
    ∀ (m : Matcher) (limits : Budget), m.dfa = splitIfPossible a limits →
      ∀ input' : List Char, input'.length = input.length →
        input'.drop (start - a.leadLength) = input.drop (start - a.leadLength) →
        m.execute input' start = m.execute input start := by
  intro before tracker context
  obtain ⟨table, htable, heq⟩ := bind_eq_ok.mp hn
  have hl : n.lookBehinds.LaidOut := by
    cases heq
    exact LookBehindTable.laidOut_of_ofTree htable
  obtain ⟨hb, -⟩ := Build.built_of_gives ha
  have hlength : before.length = start := by
    rw [List.length_take, Nat.min_eq_left hstart]
  have hbefore : before ≠ [] := List.length_pos_iff.mp (hlength ▸ hpos)
  refine ⟨?_, fun k => ?_, ?_, fun m limits hm input' hsame hrest => ?_⟩
  · obtain ⟨i, hi, hkey⟩ := exists_follows_rootMid hb hl before
    have hx : Build.ReadsAhead p d tracker (a.state i) := hb.expands i _ hkey
    obtain ⟨entry, hentry, thread, hsearch, hstate, -⟩ := hx.entry
    refine ⟨i, entry, thread, hlength ▸ hi, fun he => follows_all hb hl he hi, hentry,
      startState_eq hbefore hi hentry, hsearch, hstate⟩
  · constructor
    · intro hk
      obtain ⟨e, he, -⟩ := (LookBehindTable.contains_satisfied ..).mp hk
      exact ⟨e, he, (LookBehindTable.contains_satisfied_after hl before he).symm.trans hk⟩
    · rintro ⟨e, he, hends⟩
      exact (LookBehindTable.contains_satisfied_after hl before he).trans hends
  · have hobserves := Nfa.observes (x := ⟨multiline, input⟩) (Pattern.wellFormed_parse ht) hn rfl
      hstart
    have hcontext : n.contextAfter before = context := by
      rw [Nfa.contextAfter, List.isEmpty_eq_false_iff.mpr hbefore, Bool.false_and]
      rfl
    exact hcontext ▸ hobserves
  · rw [← leadLength_splitIfPossible a limits, ← hm] at hrest
    rw [Matcher.execute, Matcher.execute, search_congr_left m.dfa hpos hsame hrest]

set_option maxRecDepth 100000 in
theorem startState_observes_two_before : ∃ tree n a,
    Pattern.parse "(?<=ab)c|\\bd" {} {} Property.standard = .ok tree ∧
      Nfa.ofTree tree false 3500 = .ok n ∧
      (tracking (.empty : Nfa.States n) false {}).1 = .ok a ∧ a.leadLength = 2 ∧
      (∃ i, a.Follows a.rootMid "ab".toList i ∧
        (a.state i).entry = some (a.startState "xab".toList)) ∧
      ∀ m : Matcher, m.dfa = a → m.execute "yabc".toList 3 = m.execute "xabc".toList 3 := by
  obtain ⟨tree, htree⟩ := exists_ok
    (x := Pattern.parse "(?<=ab)c|\\bd" {} {} Property.standard) (by decide +kernel)
  obtain ⟨n, hn⟩ := exists_ok (x := Nfa.ofTree tree false 3500)
    (of_toOption (P := fun tree => (Nfa.ofTree tree false 3500).isOk) (by decide +kernel) htree)
  have hcheck := of_toOption (P := fun tree => ∀ n ∈ (Nfa.ofTree tree false 3500).toOption,
    (tracking (.empty : Nfa.States n) false {}).1.isOk ∧
      ∀ a ∈ (tracking (.empty : Nfa.States n) false {}).1.toOption, a.leadLength = 2)
    (by decide +kernel) htree n (by rw [hn]; rfl)
  obtain ⟨a, ha⟩ := exists_ok hcheck.1
  have hlead : a.leadLength = 2 := of_toOption hcheck.2 ha
  have hgives : Build.Gives (Build.dfa (n := n) ⟨false, .dfa, ({} : Budget).maxDfaSize,
      ({} : Budget).maxThreads⟩) (Discovered.start .empty none) a _ := Prod.ext ha rfl
  obtain ⟨⟨i, entry, -, hi, -, hentry, hstart, -⟩, -, -, hexecute⟩ :=
    startState_observes htree hn hgives (show 0 < 3 by decide)
      (show 3 ≤ "xabc".toList.length by decide)
  rw [hlead] at hi hexecute
  refine ⟨tree, n, a, htree, hn, ha, hlead, ⟨i, hi, hentry.trans (congrArg some hstart.symm)⟩,
    fun m hm => hexecute m { splitNodes := false } hm _ (by decide) (by decide)⟩

end Search

end PatternAutomata.Dfa
