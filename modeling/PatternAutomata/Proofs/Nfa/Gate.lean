import PatternAutomata.Proofs.Nfa.Observing
import PatternAutomata.Proofs.Nfa.Visiting
import PatternAutomata.Proofs.Pattern.Reader

/-!
# What automata refuse

There is an automaton for a pattern unless the pattern contains a construct that automata do not
offer. The nodes are looked at in the order of their numbers, so the first such construct is the one
that is reported. An automaton that there is has an entry for all that its walks ask about the text
before a position, and its walks never come to a node that they would have to drop.
-/

namespace PatternAutomata

namespace Tree

/-- The body is a single run of terms, which are these classes. -/
def IsLiteral (t : Tree) (body : NodeId) (classes : List CodePointSet) : Prop :=
  ∃ a, t.alternatives body = [a] ∧
    List.Forall₂ (fun term set => t.kind term = .charClass set) (t.terms a) classes

/-- The node is a construct that automata do not offer. -/
inductive Refused (t : Tree) (id : NodeId) : Feature → Prop
  | backReference {number : Nat} (h : t.kind id = .backReference number) :
    Refused t id .backReference
  | negativeLookAhead {l : LookAround} (h : t.kind id = .look l) (hdirection : l.direction = .ahead)
    (hnegated : l.negated = true) : Refused t id .negativeLookAhead
  | nonLiteralLookBehind {l : LookAround} (h : t.kind id = .look l)
    (hdirection : l.direction = .behind) (hbody : ∀ classes, ¬ t.IsLiteral l.body classes) :
    Refused t id .nonLiteralLookBehind

variable {t : Tree} {id : NodeId}

theorem pairwise_reachable (t : Tree) : t.reachable.Pairwise (· < ·) :=
  List.pairwise_lt_range.filter _

theorem WellFormed.mem_reachable_iff (h : t.WellFormed) : id ∈ t.reachable ↔ t.InPattern id :=
  ⟨inPattern_of_mem_reachable, h.mem_reachable⟩

end Tree

namespace LookBehindTable

variable {t : Tree} {multiline : Bool} {e : Bailout}

theorem literalBody?_eq_some_iff {body : NodeId} {classes : List CodePointSet} :
    literalBody? t body = some classes ↔ t.IsLiteral body classes := by
  unfold literalBody? Tree.IsLiteral
  split
  · rename_i a ha
    simp only [mapM_eq_some_iff, ha, List.cons.injEq, and_true, exists_eq_left']
    refine ⟨fun h => h.imp fun term set hset => ?_, fun h => h.imp fun term set hset => ?_⟩
    · split at hset
      · cases hset
        assumption
      · cases hset
    · rw [hset]
  · rename_i hmany
    exact ⟨nofun, fun ⟨a, ha, _⟩ => absurd ha (hmany a)⟩

/-- A node is refused for what it is. -/
theorem bodyAt?_eq_error_iff {id : NodeId} :
    bodyAt? t id = .error e ↔ ∃ f, t.Refused id f ∧ e = Stage.nfa.unsupported f := by
  constructor
  · intro h
    unfold bodyAt? at h
    split at h
    · rename_i number hk
      cases h
      exact ⟨_, .backReference hk, rfl⟩
    · rename_i l hk
      split at h
      · rename_i hdirection
        split at h
        · rename_i hnegated
          cases h
          exact ⟨_, .negativeLookAhead hk hdirection hnegated, rfl⟩
        · cases h
      · rename_i hdirection
        split at h
        · cases h
        · rename_i hnone
          cases h
          refine ⟨_, .nonLiteralLookBehind hk hdirection fun classes hclasses => ?_, rfl⟩
          rw [literalBody?_eq_some_iff.mpr hclasses] at hnone
          cases hnone
    · cases h
  · rintro ⟨f, hf, rfl⟩
    unfold bodyAt?
    cases hf with
    | backReference h => rw [h]
    | negativeLookAhead h hdirection hnegated => simp only [h, hdirection, hnegated, if_true]
    | nonLiteralLookBehind h hdirection hbody =>
      have hnone : literalBody? t _ = none :=
        Option.eq_none_iff_forall_ne_some.mpr fun classes hclasses =>
          hbody classes (literalBody?_eq_some_iff.mp hclasses)
      simp only [h, hdirection, hnone]

theorem exists_bodyAt?_iff {id : NodeId} :
    (∃ body?, bodyAt? t id = .ok body?) ↔ ∀ f, ¬ t.Refused id f := by
  constructor
  · rintro ⟨body?, hbody⟩ f hf
    rw [bodyAt?_eq_error_iff.mpr ⟨f, hf, rfl⟩] at hbody
    cases hbody
  · intro h
    cases hbody : bodyAt? t id with
    | error e =>
      obtain ⟨f, hf, -⟩ := bodyAt?_eq_error_iff.mp hbody
      exact absurd hf (h f)
    | ok body? => exact ⟨body?, rfl⟩

/-- The nodes are looked at one after the other, and the first one that is refused is reported. -/
theorem ofTree_eq_error_iff (ht : t.WellFormed) :
    ofTree t multiline = .error e ↔ ∃ id f, t.InPattern id ∧ t.Refused id f ∧
      (∀ id' < id, t.InPattern id' → ∀ f', ¬ t.Refused id' f') ∧ e = Stage.nfa.unsupported f := by
  have hbodies : ofTree t multiline = .error e ↔ t.reachable.mapM (bodyAt? t) = .error e :=
    bind_eq_error.trans (or_iff_left fun ⟨_, _, h⟩ => nomatch h)
  have hascending := t.pairwise_reachable
  rw [hbodies, mapM_eq_error_iff]
  constructor
  · rintro ⟨before, id, after, hnodes, hbefore, hid⟩
    obtain ⟨f, hf, rfl⟩ := bodyAt?_eq_error_iff.mp hid
    rw [hnodes] at hascending
    refine ⟨id, f, ht.mem_reachable_iff.mp (by simp [hnodes]), hf, fun id' hlt hid' => ?_, rfl⟩
    have hmem := ht.mem_reachable hid'
    rw [hnodes] at hmem
    rcases List.mem_append.mp hmem with hmem | hmem
    · exact exists_bodyAt?_iff.mp (hbefore id' hmem)
    · -- From the node on the numbers are no smaller.
      rcases List.mem_cons.mp hmem with rfl | hmem
      · exact absurd hlt (Nat.lt_irrefl _)
      · have hge := (List.pairwise_cons.mp (List.pairwise_append.mp hascending).2.1).1 id' hmem
        exact absurd hlt (Nat.lt_asymm hge)
  · rintro ⟨id, f, hid, hf, hfirst, rfl⟩
    obtain ⟨before, after, hnodes⟩ := List.append_of_mem (ht.mem_reachable hid)
    refine ⟨before, id, after, hnodes, fun id' hid' => exists_bodyAt?_iff.mpr ?_,
      bodyAt?_eq_error_iff.mpr ⟨f, hf, rfl⟩⟩
    rw [hnodes] at hascending
    exact hfirst id' ((List.pairwise_append.mp hascending).2.2 id' hid' id List.mem_cons_self)
      (ht.mem_reachable_iff.mp (by simp [hnodes, hid']))

end LookBehindTable

namespace Nfa

variable {t : Tree} {n : Nfa} {multiline : Bool} {maxStates : Nat}

/-- The table has the entries that walks ask for: for the body of each look-behind of the pattern,
and for a word character and a line terminator if the pattern has assertions about them. -/
structure Serves (n : Nfa) : Prop where
  behind : ∀ id l, n.tree.InPattern id → n.tree.kind id = .look l → l.direction = .behind →
    ∃ classes i, n.tree.IsLiteral l.body classes ∧ n.lookBehinds.entry? id = some i ∧
      (n.lookBehinds.entries.map (·.classes))[i]? = some classes
  word : ∀ id, n.tree.InPattern id →
    n.tree.kind id = .assertion .wordBoundary ∨ n.tree.kind id = .assertion .notWordBoundary →
    ∃ i, n.lookBehinds.word = some i ∧
      (n.lookBehinds.entries.map (·.classes))[i]? = some [CodePointSet.wordChars]
  lineTerminator : ∀ id, n.tree.InPattern id → n.tree.kind id = .assertion .atStart →
    n.multiline = true → ∃ i, n.lookBehinds.lineTerminator = some i ∧
      (n.lookBehinds.entries.map (·.classes))[i]? = some [CodePointSet.lineTerminators]

theorem fields_of_ofTree (hn : ofTree t multiline maxStates = .ok n) :
    n.tree = t ∧ n.multiline = multiline := by
  obtain ⟨table, -, h⟩ := bind_eq_ok.mp hn
  cases h
  exact ⟨rfl, rfl⟩

theorem serves_of_ofTree (ht : t.WellFormed) (hn : ofTree t multiline maxStates = .ok n) :
    n.Serves := by
  obtain ⟨table, htable, h⟩ := bind_eq_ok.mp hn
  cases h
  refine ⟨fun id l hid hl hdirection => ?_, fun id hid hk => ?_, fun id hid hk hmultiline => ?_⟩
  · obtain ⟨classes, i, hbody, hi, hclasses⟩ :=
      LookBehindTable.entry_of_behind htable hl (ht.mem_reachable hid) hdirection
    exact ⟨classes, i, LookBehindTable.literalBody?_eq_some_iff.mp hbody, hi, hclasses⟩
  · refine LookBehindTable.word_of_uses htable ?_
    rcases hk with hk | hk
    · rw [uses_of_kind ht hid hk, Bool.true_or]
    · rw [uses_of_kind ht hid hk, Bool.or_true]
  · exact LookBehindTable.lineTerminator_of_uses htable hmultiline (uses_of_kind ht hid hk)

theorem ofTree_eq_error_iff {e : Bailout} (ht : t.WellFormed) :
    ofTree t multiline maxStates = .error e ↔ ∃ id f, t.InPattern id ∧ t.Refused id f ∧
      (∀ id' < id, t.InPattern id' → ∀ f', ¬ t.Refused id' f') ∧ e = Stage.nfa.unsupported f := by
  have hbind : ofTree t multiline maxStates = .error e ↔
      LookBehindTable.ofTree t multiline = .error e :=
    bind_eq_error.trans (or_iff_left fun ⟨_, _, h⟩ => nomatch h)
  exact hbind.trans (LookBehindTable.ofTree_eq_error_iff ht)

theorem exists_ofTree_iff (ht : t.WellFormed) :
    (∃ n, ofTree t multiline maxStates = .ok n) ↔ ∀ id f, t.InPattern id → ¬ t.Refused id f := by
  constructor
  · rintro ⟨n, hn⟩ id f hid
    obtain ⟨table, htable, -⟩ := bind_eq_ok.mp hn
    exact LookBehindTable.exists_bodyAt?_iff.mp
      (LookBehindTable.bodyAt?_eq_ok htable (ht.mem_reachable hid)) f
  · intro h
    cases hn : ofTree t multiline maxStates with
    | error e =>
      obtain ⟨id, f, hid, hf, -⟩ := (ofTree_eq_error_iff ht).mp hn
      exact absurd hf (h id f hid)
    | ok n => exact ⟨n, rfl⟩

/-- The nodes that walks enter are those that they can go on from. -/
theorem enters_of_ofTree (ht : t.WellFormed) (hn : ofTree t multiline maxStates = .ok n) {s : State}
    (hs : s.Fits t) {id : NodeId} (h : n.Enters s id) :
    (id = t.matchFound ∨ t.InPattern id) ∧
      (∀ number, t.kind id ≠ .backReference number) ∧ ∀ terms, t.kind id ≠ .sequence terms := by
  obtain ⟨rfl, -⟩ := fields_of_ofTree hn
  rcases State.Fits.enters ht hs h with hid | hid
  · have hin := hid.inPattern
    refine ⟨.inr hin, fun number hk => ?_, fun terms hk => ?_⟩
    · exact (exists_ofTree_iff ht).mp ⟨n, hn⟩ id _ hin (.backReference hk)
    · have hterm := hid.isTerm ht
      rw [hk] at hterm
      cases hterm
  · have hkind := hid.kind ht
    exact ⟨hid.inPattern, by simp [hkind], by simp [hkind]⟩

section Parse

variable {pattern : String} {flags : Flags} {budget : Budget} {properties : PropertyLookup}

/-- Whatever the pattern, there is an automaton unless some node of the pattern is refused, and then
the one with the smallest number is reported. The table of an automaton serves its walks, and no
walk from a state enters a back-reference or a sequence. -/
theorem gated_of_parse (h : Pattern.parse pattern flags budget properties = .ok t)
    (multiline : Bool) (maxStates : Nat) :
    ((∃ n, ofTree t multiline maxStates = .ok n) ↔ ∀ id f, t.InPattern id → ¬ t.Refused id f) ∧
      (∀ e, ofTree t multiline maxStates = .error e ↔ ∃ id f, t.InPattern id ∧ t.Refused id f ∧
        (∀ id' < id, t.InPattern id' → ∀ f', ¬ t.Refused id' f') ∧
        e = Stage.nfa.unsupported f) ∧
      ∀ n, ofTree t multiline maxStates = .ok n →
        (n.tree = t ∧ n.multiline = multiline) ∧ n.Serves ∧ (∀ s, n.Arises s → s.Fits t) ∧
        ∀ s, s.Fits t → ∀ id, n.Enters s id → (id = t.matchFound ∨ t.InPattern id) ∧
          (∀ number, t.kind id ≠ .backReference number) ∧ ∀ terms, t.kind id ≠ .sequence terms := by
  have ht := Pattern.wellFormed_parse h
  refine ⟨exists_ofTree_iff ht, fun e => ofTree_eq_error_iff ht, fun n hn => ?_⟩
  obtain ⟨rfl, hmultiline⟩ := fields_of_ofTree hn
  exact ⟨⟨rfl, hmultiline⟩, serves_of_ofTree ht hn, fun s hs => hs.fits ht,
    fun s hs id hid => enters_of_ofTree ht hn hs hid⟩

set_option maxRecDepth 100000 in
/-- A look-behind that is served, and a pattern of which the first back-reference was dropped. -/
theorem gated_of_parse_examples :
    (∃ t n, Pattern.parse "(?<=a)b\\b" {} {} Property.standard = .ok t ∧
      ofTree t false 1000 = .ok n ∧ n.Serves ∧
      ∀ context, n.Enters (n.initial context) t.root ∧ ∀ terms, t.kind t.root ≠ .sequence terms) ∧
    ∃ t, Pattern.parse "(?:\\1)\x7b0\x7d(?!b)(a)\\1" {} {} Property.standard = .ok t ∧
      ofTree t false 1000 = .error (Stage.nfa.unsupported .negativeLookAhead) ∧
      ∃ id f, t.InPattern id ∧ t.Refused id f := by
  constructor
  · obtain ⟨t, ht⟩ := exists_ok (x := Pattern.parse "(?<=a)b\\b" {} {} Property.standard)
      (by decide +kernel)
    obtain ⟨n, hn⟩ := exists_ok (x := ofTree t false 1000)
      (of_toOption (P := fun t => (ofTree t false 1000).isOk = true) (by decide +kernel) ht)
    obtain ⟨-, -, hgate⟩ := gated_of_parse ht false 1000
    obtain ⟨⟨htree, -⟩, hserves, hfits, henters⟩ := hgate n hn
    refine ⟨t, n, ht, hn, hserves, fun context => ?_⟩
    have hroot : n.Enters (n.initial context) t.root := by
      obtain ⟨g, hg⟩ := (Pattern.wellFormed_parse ht).root_group
      subst htree
      exact ⟨_, 0, _, [], .enter (by simp [initial, hg]) (by simp [initial, hg]), .refl, rfl⟩
    exact ⟨hroot, (henters _ (hfits _ (.initial context)) _ hroot).2.2⟩
  · obtain ⟨t, ht⟩ := exists_ok
      (x := Pattern.parse "(?:\\1)\x7b0\x7d(?!b)(a)\\1" {} {} Property.standard) (by decide +kernel)
    have hlookAhead := of_toOption (P := fun t => (match ofTree t false 1000 with
      | .ok _ => false
      | .error e => decide (e = Stage.nfa.unsupported .negativeLookAhead)) = true)
      (by decide +kernel) ht
    have herror : ofTree t false 1000 = .error (Stage.nfa.unsupported .negativeLookAhead) := by
      refine eq_error ?_
      cases hn : ofTree t false 1000 <;> rwa [hn] at hlookAhead
    obtain ⟨-, hreport, -⟩ := gated_of_parse ht false 1000
    obtain ⟨id, f, hid, hf, -⟩ := (hreport _).mp herror
    exact ⟨t, ht, herror, id, f, hid, hf⟩

end Parse

end Nfa

end PatternAutomata
