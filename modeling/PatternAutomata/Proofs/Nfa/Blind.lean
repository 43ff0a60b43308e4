import PatternAutomata.Proofs.Nfa.Outcomes

/-!
# Texts that an automaton does not tell apart

The automaton tests characters with the classes of its transitions and of its look-behinds. Where
none of them tells related characters apart, texts of related characters give the same runs. The
classes are made of those in the tree, of the line terminators and, if the tree asks for words, of
the word characters.
-/

namespace PatternAutomata

variable {R : Char → Char → Prop}

/-! ## Guards -/

theorem Guard.blind_restriction {restricted : Bool} {s : CodePointSet}
    (h : restricted = true → s.Blind R) : (Guard.restriction restricted s).Blind R := by
  unfold restriction
  split
  · rename_i hr
    exact h hr
  · exact .full

theorem Guard.FitsIn.blind_allowed {t : Tree} {g : Guard} (h : g.FitsIn t)
    (hline : CodePointSet.lineTerminators.Blind R)
    (hword : t.asksForWords = true → CodePointSet.wordChars.Blind R) : g.allowed.Blind R := by
  unfold allowed
  split
  · exact .empty
  · refine .inter (.inter (blind_restriction fun _ => hline) (blind_restriction fun hw => ?_))
      (blind_restriction fun hw => .compl ?_)
    · exact hword (h (by rw [hw, Bool.true_or]))
    · exact hword (h (by rw [hw, Bool.or_true]))

namespace LookBehindTable

variable {t : LookBehindTable} {tree : Tree} {multiline : Bool}

theorem exists_of_mem_literalBody? {body : NodeId} {classes : List CodePointSet}
    (h : literalBody? tree body = some classes) {set : CodePointSet} (hset : set ∈ classes) :
    ∃ id, tree.kind id = .charClass set := by
  unfold literalBody? at h
  split at h
  · obtain ⟨id, -, hid⟩ := exists_of_mem_right (mapM_eq_some_iff.mp h) hset
    split at hid
    · rename_i hkind
      exact ⟨id, Option.some.inj hid ▸ hkind⟩
    · cases hid
  · cases h

/-- The classes of a table are those of the tree, word characters and line terminators. -/
theorem blind_of_ofTree (ht : ofTree tree multiline = .ok t)
    (hclass : ∀ id set, tree.kind id = .charClass set → set.Blind R)
    (hline : CodePointSet.lineTerminators.Blind R)
    (hword : tree.asksForWords = true → CodePointSet.wordChars.Blind R) :
    ∀ set ∈ t.classes, set.Blind R := by
  obtain ⟨bodies, hbodies, ht⟩ := bind_eq_ok.mp ht
  cases ht
  intro set hset
  obtain ⟨e, he, hset⟩ := List.mem_flatMap.mp hset
  have hmem := List.mem_map_of_mem (f := LookBehind.classes) he
  rw [LookBehind.map_classes_layOut] at hmem
  rcases List.mem_append.mp hmem with hmem | hmem
  · obtain ⟨body, hbody, heq⟩ := List.mem_map.mp hmem
    obtain ⟨id, hid, hat⟩ := exists_of_mem_right (mapM_eq_ok hbodies)
      (show some body ∈ bodies by simpa using hbody)
    unfold bodyAt? at hat
    split at hat
    · cases hat
    · split at hat
      · split at hat <;> cases hat
      · split at hat
        · rename_i classes hclasses
          cases hat
          obtain ⟨id, hid⟩ := exists_of_mem_literalBody? hclasses (heq ▸ hset)
          exact hclass id set hid
        · cases hat
    · cases hat
  · simp only [List.mem_append] at hmem
    rcases hmem with hmem | hmem
    · split at hmem
      · rename_i huses
        obtain rfl := List.mem_singleton.mp ((List.mem_singleton.mp hmem) ▸ hset)
        refine hword ?_
        rcases Bool.or_eq_true_iff.mp huses with huses | huses <;>
          · obtain ⟨id, -, hkind⟩ := List.any_eq_true.mp huses
            simp [Tree.asksForWords, Tree.usesAssertion_of_kind (of_decide_eq_true hkind)]
      · cases hmem
    · split at hmem
      · obtain rfl := List.mem_singleton.mp ((List.mem_singleton.mp hmem) ▸ hset)
        exact hline
      · cases hmem

end LookBehindTable

namespace Nfa

variable {n : Nfa}

/-! ## Automata -/

/-- No class of the automaton tells related characters apart. -/
structure Blind (n : Nfa) (R : Char → Char → Prop) : Prop where
  lookBehinds : ∀ set ∈ n.lookBehinds.classes, set.Blind R
  transitions : ∀ s ts, n.transitions s = .ok ts → ∀ t ∈ ts, t.cls.Blind R

/-- What a combination asks of the next character. -/
def Combination.Blind (n : Nfa) (R : Char → Char → Prop) (c : Combination) : Prop :=
  (∀ set, c.cls = some set → set.Blind R) ∧ c.guard.FitsIn n.tree

theorem Combination.blind_meet {cls : Option CodePointSet} {s : CodePointSet}
    (hcls : ∀ set, cls = some set → set.Blind R) (hs : s.Blind R) : (meet cls s).Blind R := by
  cases cls with
  | none => exact hs
  | some set => exact (hcls set rfl).inter hs

theorem Combination.blind_addRoute
    (hclass : ∀ id set, n.tree.kind id = .charClass set → set.Blind R) {c : Combination} {r : Route}
    (hc : c.Blind n R) (hr : r.FitsIn n) : (c.addRoute n r).Blind n R := by
  refine ⟨fun set hset => ?_, hc.2.union hr.guard⟩
  unfold addRoute at hset
  simp only at hset
  split at hset
  · exact hc.1 set hset
  · split at hset
    · rename_i hkind
      rw [← Option.some.inj hset]
      exact blind_meet hc.1 (hclass _ _ hkind)
    · exact hc.1 set hset

theorem Combination.blind_addLookAhead?
    (hclass : ∀ id set, n.tree.kind id = .charClass set → set.Blind R) {c c' : Combination}
    {r : Route} (hc : c.Blind n R) (hr : r.FitsIn n) (hc' : c.addLookAhead? n r = some c') :
    c'.Blind n R := by
  have hsum := blind_addRoute hclass hc hr
  unfold addLookAhead? at hc'
  simp only at hc'
  split at hc'
  · cases hc'
  · split at hc' <;> cases hc' <;> exact hsum

/-- An automaton is blind to what no class in its tree tells apart, if it tells neither line
terminators nor, if the tree asks for them, word characters from others by it. -/
theorem blind_of_tree {t : Tree} {multiline : Bool} {maxStates : Nat}
    (hn : Nfa.ofTree t multiline maxStates = .ok n)
    (hclass : ∀ id set, t.kind id = .charClass set → set.Blind R)
    (hline : CodePointSet.lineTerminators.Blind R)
    (hword : t.asksForWords = true → CodePointSet.wordChars.Blind R) : n.Blind R := by
  obtain ⟨table, htable, hn⟩ := bind_eq_ok.mp hn
  cases hn
  refine ⟨LookBehindTable.blind_of_ofTree htable hclass hline hword, fun s ts hts => ?_⟩
  refine transitions_induction leads_fitsIn (fun _ => fitsIn_of_mainRoutes) (by simp)
    (P := Combination.Blind _ R) (Q := fun t => t.cls.Blind R)
    (fun r hr => Combination.blind_addRoute hclass ⟨nofun, Guard.fitsIn_of_plain rfl⟩ hr)
    (fun c r c' hc hr hc' => Combination.blind_addLookAhead? hclass hc hr hc')
    (fun c hc => ?_) hts
  have hallowed := hc.2.blind_allowed hline hword
  unfold Combination.transition
  simp only
  split
  · exact hallowed
  · exact Combination.blind_meet hc.1 hallowed

/-! ## Runs -/

/-- Related texts give the same runs. -/
theorem Blind.finds (h : n.Blind R) {w w' : List Char} (hw : List.Forall₂ R w w') {tracker : BitSet}
    {s : State} {r : Option (List Boundaries)} (hr : n.Finds w tracker s r) :
    n.Finds w' tracker s r := by
  induction hw generalizing tracker s r with
  | nil => exact hr
  | @cons c d w w' hcd _ ih =>
    obtain ⟨ts, hts, hfirst⟩ := hr
    refine ⟨ts, hts, hfirst.mono fun t ht r hr => ?_⟩
    have hadvance := LookBehindTable.advance_congr
      (fun set hset => h.lookBehinds set hset c d hcd) tracker
    unfold Transition.Tries at hr ⊢
    rw [← h.transitions s ts hts t ht c d hcd, ← hadvance]
    split
    · rename_i hc
      rw [if_pos hc] at hr
      cases htarget : t.target with
      | final => simpa only [htarget] using hr
      | next main lookAheads =>
        simp only [htarget] at hr ⊢
        obtain ⟨r', hr', rfl⟩ := hr
        exact ⟨r', ih hr', rfl⟩
    · rename_i hc
      rwa [if_neg hc] at hr

theorem Blind.after_eq (h : n.Blind R) {w w' : List Char} (hw : List.Forall₂ R w w') :
    n.lookBehinds.after w = n.lookBehinds.after w' := by
  unfold LookBehindTable.after
  generalize n.lookBehinds.initial = tracker
  induction hw generalizing tracker with
  | nil => rfl
  | @cons c d w w' hcd _ ih =>
    rw [List.foldl_cons, List.foldl_cons, LookBehindTable.advance_congr
      (fun set hset => h.lookBehinds set hset c d hcd) tracker]
    exact ih _

theorem Blind.startFinds (h : n.Blind R) {input input' : List Char}
    (hw : List.Forall₂ R input input') {position : Nat} {r : Option Captures}
    (hr : n.StartFinds input position r) : n.StartFinds input' position r := by
  obtain ⟨r', hfinds, rfl⟩ := hr
  have hbefore : List.Forall₂ R (input.take position) (input'.take position) :=
    List.forall₂_take position hw
  have hcontext : n.contextAfter (input'.take position) = n.contextAfter (input.take position) := by
    unfold contextAfter
    have hempty : (input'.take position).isEmpty = (input.take position).isEmpty := by
      generalize input.take position = w at hbefore ⊢
      generalize input'.take position = w' at hbefore ⊢
      cases hbefore <;> rfl
    rw [h.after_eq hbefore, hempty]
  refine ⟨r', ?_, rfl⟩
  rw [hcontext, ← h.after_eq hbefore]
  exact h.finds (List.forall₂_drop position hw) hfinds

end Nfa

end PatternAutomata
