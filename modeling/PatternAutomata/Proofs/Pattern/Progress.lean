import PatternAutomata.Proofs.Pattern.Advancing
import PatternAutomata.Proofs.Pattern.Reader

/-!
# Going on through the pattern

Every step of the reader takes a character at least, so a run ends by itself when nothing is left. In
between the reader stays in the text and after the start of every group that it is in. Faults lie
between the place where a step begins and the end of the pattern.
-/

namespace PatternAutomata.Pattern

open Cursor

namespace Reader

/-! ## Steps -/

/-- The reader `q` is `n` characters further on than `r` at least, and groups that have been opened
since began between the two. -/
structure Reaches (n : Nat) (r q : Reader) : Prop where
  advances : Advances n r.cursor q.cursor
  frames : ∀ f ∈ q.frames, f ∈ r.frames ∨ r.cursor.pos ≤ f.start ∧ f.start < q.cursor.pos

/-- Reading on from `r` reaches a place, or finds a fault in what is left. -/
def Proceeds (n : Nat) (r : Reader) : Except CompileError Reader → Prop
  | .ok q => r.Reaches n q
  | .error e => FaultBetween r.cursor.pos r.cursor.final e

section Steps

variable {m n : Nat} {r q q' : Reader} {s : Settings} {c : Char} {x : Except CompileError Reader}

theorem Reaches.trans (h : r.Reaches m q) (h' : q.Reaches n q') : r.Reaches (m + n) q' where
  advances := h.advances.trans h'.advances
  frames f hf := by
    have hpos := h.advances.pos_le
    have hpos' := h'.advances.pos_le
    rcases h'.frames f hf with hf | ⟨hstart, hlt⟩
    · exact (h.frames f hf).imp_right fun ⟨hstart, hlt⟩ => ⟨hstart, by omega⟩
    · exact .inr ⟨by omega, hlt⟩

theorem Reaches.mono (h : r.Reaches n q) (hle : m ≤ n) : r.Reaches m q :=
  ⟨h.advances.mono hle, h.frames⟩

/-- The groups around stay open, or some of them are closed. -/
theorem reaches_of_subset (h : Advances n r.cursor q.cursor) (hf : q.frames ⊆ r.frames) :
    r.Reaches n q := ⟨h, fun _ hmem => .inl (hf hmem)⟩

theorem Proceeds.of_reaches (h : q.Proceeds n x) (hr : r.Reaches m q) : r.Proceeds (m + n) x := by
  cases x with
  | ok q' => exact hr.trans h
  | error x =>
    intro e he
    have hpos := hr.advances.pos_le
    obtain ⟨hstart, hend⟩ := h e he
    exact ⟨by omega, hr.advances.final_eq ▸ hend⟩

theorem Proceeds.mono (h : r.Proceeds n x) (hle : m ≤ n) : r.Proceeds m x := by
  cases x with
  | ok q => exact Reaches.mono h hle
  | error e => exact h

theorem proceeds_bind {f : Reader → Except CompileError Reader} (hx : r.Proceeds m x)
    (hf : ∀ q, r.Reaches m q → q.Proceeds n (f q)) : r.Proceeds (m + n) (x >>= f) := by
  cases x with
  | error e => exact hx
  | ok q => exact (hf q hx).of_reaches hx

theorem proceeds_malformed {fault : SyntaxFault} :
    r.Proceeds n (.error (.malformed ⟨r.cursor.pos, fault⟩)) :=
  faultBetween_malformed (Nat.le_refl _) r.cursor.pos_le_final

/-- Growing the tree does not move the reader. -/
theorem proceeds_grow {α : Type} {g : Grow α} {f : α × Reader → Except CompileError Reader}
    (hf : ∀ v arena, Proceeds n { r with arena } (f (v, { r with arena }))) :
    r.Proceeds n (r.grow g >>= f) := by
  obtain ⟨cursor, arena, names, level, frames⟩ := r
  unfold grow
  simp only
  cases g.run arena with
  | ok found =>
    exact ((hf found.1 found.2).of_reaches (reaches_of_subset (advances_refl cursor)
      (List.Subset.refl frames))).mono (Nat.le_add_left ..)
  | error b => exact faultBetween_bailout b

theorem proceeds_ofReading {α : Type} {x : Except SyntaxError (α × Cursor)}
    {f : α × Cursor → Except CompileError Reader} (hx : GoesOn m r.cursor.pos r.cursor x)
    (hf : ∀ a cursor, Advances m r.cursor cursor → r.Proceeds n (f (a, cursor))) :
    r.Proceeds n (ofReading x >>= f) := by
  cases x with
  | error e => exact faultBetween_malformed hx.1 hx.2
  | ok found => exact hf found.1 found.2 hx

/-- Nor does the end of an alternative. -/
theorem proceeds_endAlternative {f : Reader → Except CompileError Reader}
    (hf : ∀ arena level, Proceeds n { r with arena, level } (f { r with arena, level })) :
    r.Proceeds n (r.endAlternative >>= f) := by
  unfold endAlternative
  rw [bind_assoc]
  refine proceeds_grow fun id arena => ?_
  exact (Proceeds.of_reaches (r := { r with arena }) (hf arena _)
    (reaches_of_subset (advances_refl r.cursor) (List.Subset.refl r.frames))).mono
    (Nat.le_add_left ..)

theorem proceeds_endTerm (s : Settings) (id : NodeId) (quantifiable : Bool) (firstGroup : Nat)
    (r : Reader) : r.Proceeds 0 (endTerm s id quantifiable firstGroup r) := by
  unfold endTerm
  cases hq : quantifier s r.cursor with
  | error e => exact faultBetween_quantifier hq
  | ok found =>
    obtain ⟨q?, cursor⟩ := found
    have hadv := advances_quantifier hq
    have hframes := List.Subset.refl r.frames
    have hcursor : Advances 0 r.cursor cursor := hadv.mono (Nat.zero_le _)
    cases q? with
    | none => exact reaches_of_subset hcursor hframes
    | some quant =>
      cases quantifiable with
      | true =>
        exact Proceeds.of_reaches (n := 0) (proceeds_grow fun _ _ =>
          reaches_of_subset (advances_refl cursor) hframes)
          (reaches_of_subset (q := { r with cursor }) hcursor hframes)
      | false => exact proceeds_malformed

theorem reaches_openOther {opening : Opening} {cursor : Cursor} (h : Advances 1 r.cursor cursor) :
    r.Reaches 1 (r.openOther opening cursor) where
  advances := h
  frames f hf := by
    rcases List.mem_cons.mp hf with rfl | hf
    · exact .inr ⟨Nat.le_refl _, h.pos_le⟩
    · exact .inl hf

theorem proceeds_openCapture {name : Option String} {cursor : Cursor}
    (h : Advances 1 r.cursor cursor) : r.Proceeds 1 (r.openCapture s name cursor) := by
  unfold openCapture
  simp only
  split
  · exact faultBetween_bailout _
  · split
    · exact proceeds_malformed
    · refine ⟨h, fun f hf => ?_⟩
      rcases List.mem_cons.mp hf with rfl | hf
      · exact .inr ⟨Nat.le_refl _, h.pos_le⟩
      · exact .inl hf

theorem proceeds_openGroup (hc : r.cursor.peek? = some c) : r.Proceeds 1 (r.openGroup s) := by
  have hone := advances_of_peek? hc
  have hopen : ∀ {u w : List Char}, (r.cursor.drop 1).rest = u ++ w →
      Advances 1 r.cursor ((r.cursor.drop 1).drop u.length) := fun h =>
    (hone.trans (advances_of_rest h)).mono (Nat.le_add_right ..)
  unfold openGroup
  simp only
  split
  · exact faultBetween_bailout _
  · split
    · rename_i w hrest
      exact reaches_openOther (hopen (u := ['?', '=']) hrest)
    · rename_i w hrest
      exact reaches_openOther (hopen (u := ['?', '!']) hrest)
    · rename_i w hrest
      exact reaches_openOther (hopen (u := ['?', '<', '=']) hrest)
    · rename_i w hrest
      exact reaches_openOther (hopen (u := ['?', '<', '!']) hrest)
    · rename_i w hrest
      exact reaches_openOther (hopen (u := ['?', ':']) hrest)
    · rename_i w _ _ hrest
      have htwo : Advances 1 r.cursor ((r.cursor.drop 1).drop 2) := hopen (u := ['?', '<']) hrest
      exact proceeds_ofReading ((goesOn_groupName (Nat.le_of_succ_le htwo.pos_le)).of_advances htwo)
        fun name cursor hcursor => proceeds_openCapture (hcursor.mono (Nat.le_succ 1))
    · exact proceeds_malformed
    · exact proceeds_openCapture hone

theorem proceeds_closeGroup (hc : r.cursor.peek? = some c) : r.Proceeds 1 (r.closeGroup s) := by
  obtain ⟨cursor, arena, names, level, frames⟩ := r
  have hone : Advances 1 cursor (cursor.drop 1) := advances_of_peek? hc
  refine proceeds_endAlternative fun arena level => ?_
  cases frames with
  | nil => exact proceeds_malformed
  | cons f frames =>
    refine proceeds_grow fun node arena => ?_
    exact (proceeds_endTerm s node.1 node.2 f.firstGroup
      ⟨cursor.drop 1, arena, names, f.outer, frames⟩).of_reaches
        (reaches_of_subset hone (List.subset_cons_self f frames))

/-- Every step takes a character at least. -/
theorem proceeds_step (s : Settings) (hc : r.cursor.peek? = some c) :
    r.Proceeds 1 (r.step s c) := by
  unfold step
  split
  · exact proceeds_endAlternative fun _ _ =>
      reaches_of_subset (advances_of_peek? hc) (List.Subset.refl r.frames)
  · exact proceeds_openGroup hc
  · exact proceeds_closeGroup hc
  · refine proceeds_ofReading (goesOn_atom s hc) fun a cursor hcursor => ?_
    refine proceeds_grow fun id arena => ?_
    exact (proceeds_endTerm s id a.quantifiable r.nextGroup { r with arena, cursor }).of_reaches
      (reaches_of_subset hcursor (List.Subset.refl r.frames))

/-! ## Runs -/

theorem proceeds_run (s : Settings) (fuel : Nat) (r : Reader) : r.Proceeds 0 (run s fuel r) := by
  induction fuel generalizing r with
  | zero => exact reaches_of_subset (advances_refl _) (List.Subset.refl _)
  | succ fuel ih =>
    unfold run
    split
    · exact reaches_of_subset (advances_refl _) (List.Subset.refl _)
    · rename_i c hc
      exact (proceeds_bind (proceeds_step s hc) fun q _ => ih q).mono (Nat.zero_le _)

/-- A step leaves less of the text, by a character at least. -/
theorem length_lt_of_step (hc : r.cursor.peek? = some c) (hq : r.step s c = .ok q) :
    q.cursor.rest.length < r.cursor.rest.length := by
  have hstep := proceeds_step s hc
  rw [hq] at hstep
  exact (Reaches.advances hstep).length_le

/-- The fuel of a run is never used up. -/
theorem run_of_le {fuel fuel' : Nat} (h : r.cursor.rest.length ≤ fuel) (hle : fuel ≤ fuel') :
    run s fuel' r = run s fuel r := by
  induction fuel generalizing r fuel' with
  | zero =>
    cases fuel' with
    | zero => rfl
    | succ fuel' =>
      have hpeek : r.cursor.peek? = none := by
        rw [peek?, List.length_eq_zero_iff.mp (Nat.le_zero.mp h), List.head?_nil]
      rw [run, run, hpeek]
  | succ fuel ih =>
    obtain ⟨fuel', rfl⟩ := Nat.exists_eq_add_of_le' hle
    rw [← Nat.add_assoc, run, run]
    split
    · rfl
    · rename_i c hc
      cases hq : r.step s c with
      | error e => rfl
      | ok q =>
        have hlt := length_lt_of_step hc hq
        exact ih (by omega) (Nat.le_add_left ..)

/-- A run that succeeds has read all of the text. -/
theorem rest_of_run {fuel : Nat} (h : r.cursor.rest.length ≤ fuel) (hq : run s fuel r = .ok q) :
    q.cursor.rest = [] := by
  induction fuel generalizing r with
  | zero =>
    cases hq
    exact List.length_eq_zero_iff.mp (Nat.le_zero.mp h)
  | succ fuel ih =>
    unfold run at hq
    split at hq
    · rename_i hpeek
      cases hq
      exact List.head?_eq_none_iff.mp hpeek
    · rename_i c hc
      obtain ⟨q', hstep, hq⟩ := bind_eq_ok.mp hq
      have hlt := length_lt_of_step hc hstep
      exact ih (by omega) hq

end Steps

/-- Growing the tree finds no fault. -/
theorem grow_eq_error {α : Type} {r : Reader} {g : Grow α} {x : CompileError}
    (h : r.grow g = .error x) : ∃ b, x = .bailout b := by
  obtain ⟨cursor, arena, names, level, frames⟩ := r
  simp only [grow] at h
  split at h
  · cases h
  · cases h
    exact ⟨_, rfl⟩

/-- At the end a fault can only be a group that was not closed. -/
theorem position_of_finish {r : Reader} {e : SyntaxError} (h : r.finish = .error (.malformed e)) :
    ∃ f ∈ r.frames, e.position = f.start := by
  rcases bind_eq_error.mp h with h | ⟨q, hq, h⟩
  · rcases bind_eq_error.mp h with h | ⟨found, -, h⟩
    · obtain ⟨b, hb⟩ := grow_eq_error h
      cases hb
    · cases h
  · obtain ⟨⟨id, q'⟩, hgrow, hq⟩ := bind_eq_ok.mp hq
    cases hq
    obtain ⟨arena, -, rfl⟩ := grow_eq_ok hgrow
    obtain ⟨cursor, _, names, level, frames⟩ := r
    cases frames with
    | cons f frames =>
      cases h
      exact ⟨f, List.mem_cons_self, rfl⟩
    | nil =>
      -- What is left adds nodes only.
      rcases bind_eq_error.mp h with h | ⟨⟨root, q⟩, -, h⟩
      · obtain ⟨b, hb⟩ := grow_eq_error h
        cases hb
      · simp only at h
        split at h <;> cases h

/-- The reader is in the text, and after the start of every group that it is in. -/
structure Within (text : List Char) (r : Reader) : Prop where
  on : r.cursor.On text
  frames : ∀ f ∈ r.frames, f.start < r.cursor.pos

theorem Within.of_reaches {text : List Char} {r q : Reader} {n : Nat} (h : r.Within text)
    (hq : r.Reaches n q) : q.Within text where
  on := hq.advances.on h.on
  frames f hf := by
    have hpos := hq.advances.pos_le
    rcases hq.frames f hf with hf | ⟨-, hlt⟩
    · have hlt := h.frames f hf
      omega
    · exact hlt

end Reader

/-! ## Patterns -/

/-- Reading the text from `first` on comes to an end by itself, stays in the text and goes on with
every step and with every item of a class. -/
structure ReadsOnward (s : Settings) (text : List Char) (first : Reader) : Prop where
  ends : ∀ fuel, text.length ≤ fuel → Reader.run s fuel first = Reader.run s text.length first
  reads_all : ∀ r, Reader.run s text.length first = .ok r → r.cursor.rest = []
  within : ∀ fuel r, Reader.run s fuel first = .ok r → r.Within text
  steps : ∀ fuel r, Reader.run s fuel first = .ok r → ∀ c, r.cursor.peek? = some c →
    r.Proceeds 1 (r.step s c)
  class_ends : ∀ (cur : Cursor) (start fuel : Nat), cur.rest.length ≤ fuel →
    classItems s start fuel cur = classItems s start cur.rest.length cur
  classAtoms : ∀ cur : Cursor, cur.On text → ∀ a after, classAtom s cur = .ok (a, after) →
    after.On text ∧ cur.pos < after.pos
  atoms : ∀ cur : Cursor, cur.On text → ∀ c, cur.peek? = some c → ∀ a after,
    atom s c cur = .ok (a, after) → after.On text ∧ cur.pos < after.pos
  quantifiers : ∀ cur : Cursor, cur.On text → ∀ q? after, quantifier s cur = .ok (q?, after) →
    after.On text ∧ cur.pos + q?.toList.length ≤ after.pos

theorem GoesOn.lands {α : Type} {start : Nat} {text : List Char} {cur after : Cursor} {a : α}
    (h : GoesOn 1 start cur (.ok (a, after))) (hon : cur.On text) :
    after.On text ∧ cur.pos < after.pos :=
  ⟨Advances.on h hon, Advances.pos_le h⟩

theorem readsOnward {s : Settings} {text : List Char} {first : Reader} (h : first.Within text)
    (hstart : first.cursor.pos = 0) : ReadsOnward s text first := by
  have hlength : first.cursor.rest.length = text.length := by
    rw [h.on.rest, hstart, List.drop_zero]
  refine ⟨fun fuel => Reader.run_of_le (Nat.le_of_eq hlength), fun r =>
    Reader.rest_of_run (Nat.le_of_eq hlength), fun fuel r hr => ?_, fun fuel r _ c hc =>
    Reader.proceeds_step s hc, fun cur start fuel => classItems_of_le (Nat.le_refl _),
    fun cur hon a after ha => ?_, fun cur hon c hc a after ha => ?_,
    fun cur hon q? after hq => ?_⟩
  · have hrun := Reader.proceeds_run s fuel first
    rw [hr] at hrun
    exact h.of_reaches hrun
  · exact GoesOn.lands (ha ▸ goesOn_classAtom s cur) hon
  · exact GoesOn.lands (ha ▸ goesOn_atom s hc) hon
  · have hadv := advances_quantifier hq
    exact ⟨hadv.on hon, hadv.pos_le⟩

/-- The reader always goes on, stays in the pattern and comes to an end; faults are in the pattern or
at its end. -/
theorem parse_readsOnward (pattern : String) (flags : Flags) (budget : Budget)
    (properties : PropertyLookup) :
    ReadsOnward (.new flags budget properties (declaredGroups pattern.toList)) pattern.toList
        { cursor := .ofString pattern, arena := { limit := budget.maxTreeSize } } ∧
      ∀ e, parse pattern flags budget properties = .error (.malformed e) →
        e.position ≤ pattern.toList.length := by
  have hwithin : Reader.Within pattern.toList
      { cursor := .ofString pattern, arena := { limit := budget.maxTreeSize } } :=
    ⟨on_ofString pattern, nofun⟩
  have hreads := readsOnward (s := .new flags budget properties (declaredGroups pattern.toList))
    hwithin rfl
  refine ⟨hreads, fun e he => ?_⟩
  have hend := (on_ofString pattern).final_eq
  have hrun := Reader.proceeds_run (.new flags budget properties (declaredGroups pattern.toList))
    pattern.toList.length
    { cursor := .ofString pattern, arena := { limit := budget.maxTreeSize } }
  rcases bind_eq_error.mp he with hx | ⟨r, hr, hfinish⟩
  · have hfault := (hx ▸ hrun) e rfl
    exact hend ▸ hfault.2
  · obtain ⟨f, hf, hposition⟩ := Reader.position_of_finish hfinish
    have hr := hreads.within _ r hr
    exact hposition ▸ Nat.le_trans (Nat.le_of_lt (hr.frames f hf)) hr.on.pos_le

end PatternAutomata.Pattern
