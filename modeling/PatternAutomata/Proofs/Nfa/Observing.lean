import PatternAutomata.Proofs.Nfa.Runs
import PatternAutomata.Proofs.Nfa.Walking

/-!
# What contexts tell

The context after a text tells all that the pattern asks about what comes before a position.
-/

namespace PatternAutomata

namespace Subject

variable {x : Subject} {position : Nat}

theorem getLast?_take (h : position ≤ x.text.length) :
    (x.text.take position).getLast? = x.before? position := by
  unfold before?
  cases position with
  | zero => rfl
  | succ p =>
    rw [List.getLast?_eq_getElem?, List.length_take, Nat.min_eq_left h, List.getElem?_take]
    simp

theorem endsIn_singleton (w : List Char) (set : CodePointSet) :
    endsIn w [set] = w.getLast?.any fun c => set.contains c.toNat := by
  induction w using List.reverseRecOn with
  | nil => rfl
  | append_singleton w c =>
    have := endsIn_append_singleton w c [] set
    rw [List.nil_append, endsIn_nil, Bool.true_and] at this
    rw [this, List.getLast?_concat]
    rfl

end Subject

namespace LookBehindTable

variable {t : LookBehindTable} {tree : Tree} {multiline : Bool}

theorem lookup_zipIdx {l : List NodeId} {id : NodeId} (h : id ∈ l) (k : Nat) :
    ∃ i, (l.zipIdx k).lookup id = some (k + i) ∧ l[i]? = some id := by
  induction l generalizing k with
  | nil => cases h
  | cons a l ih =>
    rw [List.zipIdx_cons]
    by_cases ha : id = a
    · subst ha
      exact ⟨0, by rw [List.lookup_cons, beq_self_eq_true]; rfl, rfl⟩
    · obtain ⟨i, hi, hl⟩ := ih ((List.mem_cons.mp h).resolve_left ha) (k + 1)
      refine ⟨i + 1, ?_, by simpa using hl⟩
      rw [List.lookup_cons, beq_eq_false_iff_ne.mpr ha, hi]
      simp only [Option.some.injEq]
      omega

theorem fst_of_bodyAt? {node : NodeId} {body : NodeId × List CodePointSet}
    (h : bodyAt? tree node = .ok (some body)) : body.1 = node := by
  unfold bodyAt? at h
  split at h
  · cases h
  · split at h
    · split at h <;> cases h
    · split at h
      · cases h
        rfl
      · cases h
  · cases h

section OfTree

variable {node : NodeId} {l : LookAround} (ht : ofTree tree multiline = .ok t)
include ht

theorem bodyAt?_eq_ok (hnode : node ∈ tree.reachable) :
    ∃ body?, bodyAt? tree node = .ok body? := by
  obtain ⟨found, hfound, -⟩ := bind_eq_ok.mp ht
  obtain ⟨i, hi, rfl⟩ := List.mem_iff_getElem.mp hnode
  have hall := mapM_eq_ok hfound
  exact ⟨_, hall.get hi (hall.length_eq ▸ hi)⟩

/-- Automata do not offer negated look-aheads. -/
theorem negated_of_ahead (hl : tree.kind node = .look l) (hnode : node ∈ tree.reachable)
    (hdirection : l.direction = .ahead) : l.negated = false := by
  obtain ⟨body?, hbody⟩ := bodyAt?_eq_ok ht hnode
  unfold bodyAt? at hbody
  simp only [hl, hdirection] at hbody
  cases hnegated : l.negated with
  | false => rfl
  | true =>
    rw [hnegated] at hbody
    cases hbody

/-- Each look-behind has an entry, for its body. -/
theorem entry_of_behind (hl : tree.kind node = .look l) (hnode : node ∈ tree.reachable)
    (hdirection : l.direction = .behind) :
    ∃ classes i, literalBody? tree l.body = some classes ∧ t.entry? node = some i ∧
      (t.entries.map (·.classes))[i]? = some classes := by
  obtain ⟨body?, hbody⟩ := bodyAt?_eq_ok ht hnode
  obtain ⟨found, hfound, htable⟩ := bind_eq_ok.mp ht
  have hall := mapM_eq_ok hfound
  cases htable
  cases hclasses : literalBody? tree l.body with
  | none =>
    unfold bodyAt? at hbody
    simp only [hl, hdirection, hclasses] at hbody
    cases hbody
  | some classes =>
    have hbodyAt : bodyAt? tree node = .ok (some (node, classes)) := by
      unfold bodyAt?
      simp only [hl, hdirection, hclasses]
    have hmem : ∀ body, body ∈ found.filterMap id ↔ some body ∈ found := fun body => by
      simp [List.mem_filterMap]
    -- The node has this body among those found, and no other.
    have hself : (node, classes) ∈ found.filterMap id := by
      obtain ⟨b, hb, heq⟩ := exists_of_mem_right hall.flip hnode
      rw [hbodyAt] at heq
      cases heq
      exact (hmem _).mpr hb
    have honly : ∀ body ∈ found.filterMap id, body.1 = node → body.2 = classes := by
      intro body hbody hfst
      obtain ⟨node', -, heq⟩ := exists_of_mem_right hall ((hmem body).mp hbody)
      rw [← fst_of_bodyAt? heq, hfst, hbodyAt] at heq
      cases heq
      rfl
    generalize found.filterMap id = bodies at hself honly
    obtain ⟨i, hi, hget⟩ := lookup_zipIdx
      (List.mem_map.mpr ⟨_, hself, rfl⟩ : node ∈ bodies.map (·.1)) 0
    rw [Nat.zero_add] at hi
    refine ⟨classes, i, rfl, hi, ?_⟩
    rw [List.getElem?_map] at hget
    obtain ⟨body, hbody, hfst⟩ := Option.map_eq_some_iff.mp hget
    simp only [LookBehind.map_classes_layOut]
    rw [List.getElem?_append_left (by
      rw [List.length_map]
      exact (List.getElem?_eq_some_iff.mp hbody).1), List.getElem?_map, hbody]
    exact congrArg some (honly body (List.mem_of_getElem? hbody) hfst)

/-- A pattern that asks for word boundaries has an entry for a word character. -/
theorem word_of_uses (hword : (tree.reachable.any fun id => tree.kind id = .assertion .wordBoundary) ||
      tree.reachable.any fun id => tree.kind id = .assertion .notWordBoundary) :
    ∃ i, t.word = some i ∧ (t.entries.map (·.classes))[i]? = some [CodePointSet.wordChars] := by
  obtain ⟨found, -, htable⟩ := bind_eq_ok.mp ht
  cases htable
  refine ⟨(found.filterMap id).length, if_pos hword, ?_⟩
  simp only [LookBehind.map_classes_layOut]
  rw [List.getElem?_append_right (by simp), if_pos hword]
  simp

/-- A pattern that asks for starts of lines has an entry for a line terminator. -/
theorem lineTerminator_of_uses (hmultiline : multiline = true)
    (hstart : (tree.reachable.any fun id => tree.kind id = .assertion .atStart) = true) :
    ∃ i, t.lineTerminator = some i ∧
      (t.entries.map (·.classes))[i]? = some [CodePointSet.lineTerminators] := by
  obtain ⟨found, -, htable⟩ := bind_eq_ok.mp ht
  cases htable
  have hline : (multiline && tree.reachable.any fun id => tree.kind id = .assertion .atStart) =
      true := by rw [hmultiline, hstart]; rfl
  refine ⟨_, if_pos hline, ?_⟩
  simp only [LookBehind.map_classes_layOut, if_pos hline]
  split
  · rw [List.getElem?_append_right (by simp)]
    simp
  · rw [List.getElem?_append_right (by simp)]
    simp

end OfTree

theorem holds_entry {n : Nfa} (ht : n.lookBehinds.LaidOut) (w : List Char) {i : Nat}
    {classes : List CodePointSet} (hi : (n.lookBehinds.entries.map (·.classes))[i]? = some classes) :
    Nfa.Walk.holds (n.contextAfter w) (some i) = Subject.endsIn w classes := by
  rw [List.getElem?_map] at hi
  obtain ⟨e, he, rfl⟩ := Option.map_eq_some_iff.mp hi
  exact contains_satisfied_after ht w he

end LookBehindTable

namespace Nfa

variable {n : Nfa} {tree : Tree} {multiline : Bool} {maxStates : Nat} {x : Subject} {position : Nat}

theorem uses_of_kind (ht : tree.WellFormed) {id : NodeId} (hid : tree.InPattern id) {a : Assertion}
    (hk : tree.kind id = .assertion a) :
    (tree.reachable.any fun id => tree.kind id = .assertion a) = true :=
  List.any_eq_true.mpr ⟨id, ht.mem_reachable hid, by simpa using hk⟩

theorem usesStart_of_kind {id : NodeId} (hk : n.tree.kind id = .assertion .atStart) :
    n.usesStart = true := by
  unfold usesStart Tree.usesAssertion
  rw [Array.contains_iff_mem]
  by_cases hid : id < n.tree.kinds.size
  · have : n.tree.kind id = n.tree.kinds[id] := by simp [Tree.kind, hid]
    rw [← hk, this]
    exact Array.getElem_mem hid
  · rw [Tree.kind, Array.getD_eq_getD_getElem?,
      Array.getElem?_eq_none_iff.mpr (Nat.le_of_not_lt hid)] at hk
    cases hk

/-- The context after the text before a position. -/
theorem observes (ht : tree.WellFormed) (hn : ofTree tree multiline maxStates = .ok n)
    (hx : x.multiline = multiline) (hposition : position ≤ x.text.length) :
    n.Observes x position (n.contextAfter (x.text.take position)) := by
  obtain ⟨table, htable, h⟩ := bind_eq_ok.mp hn
  have hlaid := LookBehindTable.laidOut_of_ofTree htable
  cases h
  refine ⟨hx, fun id hid hk => ?_, fun id hid hk => ?_, fun id l hid hl hdirection => ?_,
    fun id l hid hl hdirection => ?_, hposition⟩
  · have hstart : ((x.text.take position).isEmpty &&
        usesStart ⟨tree, table, multiline, maxStates⟩) = decide (position = 0) := by
      rw [usesStart_of_kind hk, Bool.and_true]
      cases position with
      | zero => rfl
      | succ p =>
        cases htext : x.text with
        | nil => simp [htext] at hposition
        | cons c cs => rfl
    have hline : (multiline && Walk.holds (contextAfter ⟨tree, table, multiline, maxStates⟩
        (x.text.take position)) table.lineTerminator) =
        (x.multiline && Subject.isLineTerminator (x.before? position)) := by
      rw [hx]
      cases hm : multiline with
      | false => rfl
      | true =>
        obtain ⟨i, hi, hclasses⟩ := LookBehindTable.lineTerminator_of_uses htable hm
          (uses_of_kind ht hid hk)
        rw [hi, LookBehindTable.holds_entry hlaid _ hclasses, Subject.endsIn_singleton,
          Subject.getLast?_take hposition]
        rfl
    simp only [hline]
    rw [Subject.holds, ← hstart]
    rfl
  · obtain ⟨i, hi, hclasses⟩ := LookBehindTable.word_of_uses htable (by
      rcases hk with hk | hk
      · rw [uses_of_kind ht hid hk, Bool.true_or]
      · rw [uses_of_kind ht hid hk, Bool.or_true])
    simp only [hi]
    rw [LookBehindTable.holds_entry hlaid _ hclasses, Subject.endsIn_singleton,
      Subject.getLast?_take hposition]
    rfl
  · exact LookBehindTable.negated_of_ahead htable hl (ht.mem_reachable hid) hdirection
  · obtain ⟨classes, i, hbody, hi, hclasses⟩ :=
      LookBehindTable.entry_of_behind htable hl (ht.mem_reachable hid) hdirection
    refine ⟨classes, hbody, ?_⟩
    simp only [hi]
    exact LookBehindTable.holds_entry hlaid _ hclasses

end Nfa

end PatternAutomata
