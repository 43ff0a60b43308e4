import PatternAutomata.Pattern.Reader

/-!
# Going on in the text

The parts of the reader look ahead, and return to where they were if they do not find what they look
for. But whatever they take, they take from the text that is left: `Advances n cur after` says that
`after` is `n` characters further on than `cur` at least, and not beyond the end. Each part advances, by
a character at least where a loop depends on it, and reports faults between the place where it began
and the end.
-/

namespace PatternAutomata

namespace Cursor

/-- The cursor `after` is `n` characters further on at least, and not beyond the end of the text. -/
def Advances (n : Nat) (cur after : Cursor) : Prop :=
  ∃ k, n ≤ k ∧ k ≤ cur.rest.length ∧ after = cur.drop k

/-- The cursor is at one of the characters of the text, or at its end. -/
structure On (text : List Char) (cur : Cursor) : Prop where
  pos_le : cur.pos ≤ text.length
  rest : cur.rest = text.drop cur.pos

/-- The position of the end of the text. -/
def final (cur : Cursor) : Nat := cur.pos + cur.rest.length

section Advances

variable {m n : Nat} {cur after after' : Cursor} {text : List Char}

theorem advances_drop (h : n ≤ cur.rest.length) : Advances n cur (cur.drop n) :=
  ⟨n, Nat.le_refl n, h, rfl⟩

theorem advances_refl (cur : Cursor) : Advances 0 cur cur := advances_drop (Nat.zero_le _)

theorem drop_drop (cur : Cursor) (m n : Nat) : (cur.drop m).drop n = cur.drop (m + n) := by
  simp only [drop, List.drop_drop, Nat.add_assoc]

theorem Advances.trans (h : Advances m cur after) (h' : Advances n after after') :
    Advances (m + n) cur after' := by
  obtain ⟨j, hj, hjlen, rfl⟩ := h
  obtain ⟨k, hk, hklen, rfl⟩ := h'
  rw [drop, List.length_drop] at hklen
  exact ⟨j + k, Nat.add_le_add hj hk, by omega, drop_drop cur j k⟩

theorem Advances.mono (h : Advances n cur after) (hle : m ≤ n) : Advances m cur after := by
  obtain ⟨k, hk, hlen, rfl⟩ := h
  exact ⟨k, Nat.le_trans hle hk, hlen, rfl⟩

theorem Advances.pos_le (h : Advances n cur after) : cur.pos + n ≤ after.pos := by
  obtain ⟨k, hk, -, rfl⟩ := h
  exact Nat.add_le_add_left hk _

/-- The end of the text stays where it is. -/
theorem Advances.final_eq (h : Advances n cur after) : after.final = cur.final := by
  obtain ⟨k, -, hlen, rfl⟩ := h
  simp only [final, drop, List.length_drop]
  omega

theorem Advances.length_le (h : Advances n cur after) :
    after.rest.length + n ≤ cur.rest.length := by
  obtain ⟨k, hk, hlen, rfl⟩ := h
  simp only [drop, List.length_drop]
  omega

theorem Advances.on (h : Advances n cur after) (hon : cur.On text) : after.On text := by
  obtain ⟨k, -, hlen, rfl⟩ := h
  obtain ⟨hpos, hrest⟩ := hon
  rw [hrest, List.length_drop] at hlen
  exact ⟨by simp only [drop]; omega, by simp only [drop, hrest, List.drop_drop]⟩

theorem On.final_eq (hon : cur.On text) : cur.final = text.length := by
  have := hon.pos_le
  rw [final, hon.rest, List.length_drop]
  omega

theorem on_ofString (s : String) : (ofString s).On s.toList := ⟨Nat.zero_le _, rfl⟩

theorem pos_le_final (cur : Cursor) : cur.pos ≤ cur.final := Nat.le_add_right ..

/-! ## Characters and numbers -/

theorem peek?_eq_some_iff {c : Char} : cur.peek? = some c ↔ ∃ w, cur.rest = c :: w :=
  List.head?_eq_some_iff

theorem advances_of_rest {u w : List Char} (h : cur.rest = u ++ w) :
    Advances u.length cur (cur.drop u.length) :=
  advances_drop (by simp [h])

theorem advances_of_peek? {c : Char} (h : cur.peek? = some c) : Advances 1 cur (cur.drop 1) := by
  obtain ⟨w, hw⟩ := peek?_eq_some_iff.mp h
  exact advances_of_rest (u := [c]) hw

theorem advances_skip? {s : String} (h : cur.skip? s = some after) :
    Advances s.length cur after := by
  unfold skip? at h
  split at h
  · rename_i hpre
    cases h
    exact advances_drop (List.isPrefixOf_iff_prefix.mp hpre).length_le
  · cases h

theorem advances_takeWhile (cur : Cursor) (p : Char → Bool) :
    Advances (cur.takeWhile p).1.length cur (cur.takeWhile p).2 :=
  advances_drop (List.takeWhile_sublist p).length_le

theorem advances_numeral? {base v : Nat} (h : cur.numeral? base = some (v, after)) :
    Advances 1 cur after := by
  have htaken := advances_takeWhile cur (isDigit base)
  unfold numeral? at h
  revert h htaken
  generalize cur.takeWhile (isDigit base) = taken
  obtain ⟨digits, found⟩ := taken
  intro h htaken
  cases digits with
  | nil => cases h
  | cons d digits =>
    cases h
    exact htaken.mono (Nat.succ_le_succ (Nat.zero_le _))

theorem advances_hex? {v : Nat} (h : cur.hex? n = some (v, after)) : Advances n cur after := by
  unfold hex? at h
  simp only at h
  split at h
  · rename_i hdigits
    cases h
    have hlen := hdigits.1
    rw [List.length_take] at hlen
    exact advances_drop (by omega)
  · cases h

theorem advances_octalFrom (n v : Nat) (cur : Cursor) : Advances 0 cur (octalFrom n v cur).2 := by
  induction n generalizing v cur with
  | zero => exact advances_refl cur
  | succ n ih =>
    unfold octalFrom
    split
    · rename_i d hd
      split
      · obtain ⟨c, hc, -⟩ := Option.bind_eq_some_iff.mp hd
        exact ((advances_of_peek? hc).trans (ih _ _)).mono (Nat.zero_le _)
      · exact advances_refl cur
    · exact advances_refl cur

end Advances

end Cursor

namespace Pattern

open Cursor

/-! ## Reading -/

/-- Reading from `cur` on takes `n` characters at least; a fault is between `start` and the end. -/
def GoesOn {α : Type} (n start : Nat) (cur : Cursor) : Except SyntaxError (α × Cursor) → Prop
  | .ok (_, after) => Advances n cur after
  | .error e => start ≤ e.position ∧ e.position ≤ cur.final

section GoesOn

variable {α β : Type} {m n start : Nat} {cur after : Cursor}

theorem goesOn_ok {a : α} (h : Advances n cur after) :
    GoesOn n start cur (Except.ok (a, after) : Except SyntaxError (α × Cursor)) := h

theorem goesOn_fail {position : Nat} {fault : SyntaxFault} (h : start ≤ position)
    (h' : position ≤ cur.final) : GoesOn n start cur (fail position fault :
      Except SyntaxError (α × Cursor)) := ⟨h, h'⟩

theorem GoesOn.mono {x : Except SyntaxError (α × Cursor)} (h : GoesOn n start cur x)
    (hle : m ≤ n) : GoesOn m start cur x := by
  cases x with
  | error e => exact h
  | ok found => exact Advances.mono h hle

theorem GoesOn.weaken {x : Except SyntaxError (α × Cursor)} {start' : Nat}
    (h : GoesOn n start cur x) (hle : start' ≤ start) : GoesOn n start' cur x := by
  cases x with
  | error e => exact ⟨Nat.le_trans hle h.1, h.2⟩
  | ok found => exact h

/-- What is read further on is read from here on. -/
theorem GoesOn.of_advances {x : Except SyntaxError (α × Cursor)} (h : GoesOn n start after x)
    (hadv : Advances m cur after) : GoesOn (m + n) start cur x := by
  cases x with
  | error e => exact ⟨h.1, hadv.final_eq ▸ h.2⟩
  | ok found => exact hadv.trans h

theorem goesOn_bind {x : Except SyntaxError (α × Cursor)}
    {f : α × Cursor → Except SyntaxError (β × Cursor)} (hx : GoesOn m start cur x)
    (hf : ∀ a after, Advances m cur after → GoesOn n start after (f (a, after))) :
    GoesOn (m + n) start cur (x >>= f) := by
  cases x with
  | error e => exact hx
  | ok found => exact (hf found.1 found.2 hx).of_advances hx

/-- What has been read is made into something else, and nothing more is read. -/
theorem GoesOn.made {x : Except SyntaxError (α × Cursor)}
    {f : α × Cursor → Except SyntaxError (β × Cursor)} (hx : GoesOn n start cur x)
    (hf : ∀ a after, ∃ b, f (a, after) = .ok (b, after)) : GoesOn n start cur (x >>= f) := by
  cases x with
  | error e => exact hx
  | ok found =>
    obtain ⟨a, after⟩ := found
    obtain ⟨b, hb⟩ := hf a after
    change GoesOn n start cur (f (a, after))
    rw [hb]
    exact hx

end GoesOn

/-! ## Escapes -/

section Escapes

variable {n start : Nat} {cur after : Cursor} {s : Settings} {c : Char}

theorem goesOn_groupName (h : start ≤ cur.pos) : GoesOn 1 start cur (groupName cur) := by
  unfold groupName
  have htaken := advances_takeWhile cur isNamePart
  revert htaken
  generalize cur.takeWhile isNamePart = taken
  intro htaken
  simp only
  split
  · rename_i after _ hskip
    split
    · exact goesOn_ok ((htaken.trans (advances_skip? hskip)).mono (Nat.le_add_left ..))
    · exact goesOn_fail h cur.pos_le_final
  · exact goesOn_fail h cur.pos_le_final

theorem goesOn_property (negated : Bool) (h : start ≤ cur.final) :
    GoesOn 0 start cur (property s negated start cur) := by
  unfold property
  split
  · exact goesOn_fail (Nat.le_refl _) h
  · rename_i inside hopen
    simp only
    split
    · rename_i after _ hclose _
      exact goesOn_ok (((advances_skip? hopen).trans ((advances_takeWhile _ _).trans
        (advances_skip? hclose))).mono (Nat.zero_le _))
    · exact goesOn_fail (Nat.le_refl _) h

theorem advances_bracedCodePoint? {v : Nat} (h : bracedCodePoint? cur = some (v, after)) :
    Advances 0 cur after := by
  simp only [bracedCodePoint?, Option.bind_eq_bind, Option.bind_eq_some_iff, Prod.exists] at h
  obtain ⟨inside, hopen, value, digits, hdigits, close, hclose, hif⟩ := h
  split at hif
  · cases hif
    exact ((advances_skip? hopen).trans ((advances_numeral? hdigits).trans
      (advances_skip? hclose))).mono (Nat.zero_le _)
  · cases hif

theorem advances_trailEscape? {v : Nat} (h : trailEscape? cur = some (v, after)) :
    Advances 0 cur after := by
  simp only [trailEscape?, Option.bind_eq_bind, Option.bind_eq_some_iff, Prod.exists] at h
  obtain ⟨inside, hopen, value, digits, hdigits, hif⟩ := h
  split at hif
  · cases hif
    exact ((advances_skip? hopen).trans (advances_hex? hdigits)).mono (Nat.zero_le _)
  · cases hif

theorem advances_unicodeEscape? {unicode : Bool} {v : Nat}
    (h : unicodeEscape? unicode cur = some (v, after)) : Advances 0 cur after := by
  unfold unicodeEscape? at h
  split at h
  · exact advances_bracedCodePoint? h
  · split at h
    · cases h
    · rename_i lead middle hlead
      have hmiddle := (advances_hex? hlead).mono (Nat.zero_le _)
      split at h
      · rename_i htrail
        split at h
        · obtain ⟨-, rfl⟩ := Prod.mk.inj (Option.some.inj h)
          exact hmiddle.trans (advances_trailEscape? htrail)
        · cases h
          exact hmiddle
      · cases h
        exact hmiddle

theorem goesOn_controlEscape (unicode inClass : Bool) (hc : cur.peek? = some c)
    (h : start ≤ cur.final) : GoesOn 0 start cur (controlEscape unicode inClass start cur) := by
  unfold controlEscape
  simp only
  split
  · rename_i l hl
    have hletter := advances_of_peek? (Option.eq_some_of_filter_eq_some hl)
    rw [drop_drop] at hletter
    exact goesOn_ok (((advances_of_peek? hc).trans hletter).mono (Nat.zero_le _))
  · split
    · exact goesOn_fail (Nat.le_refl _) h
    · exact goesOn_ok (advances_refl cur)

theorem goesOn_characterEscape (unicode inClass : Bool) (h : start ≤ cur.final) :
    GoesOn 0 start cur (characterEscape unicode inClass start cur) := by
  unfold characterEscape
  split
  · exact goesOn_fail (Nat.le_refl _) h
  · rename_i c hc
    have hafter : Advances 0 cur (cur.drop 1) := (advances_of_peek? hc).mono (Nat.zero_le _)
    simp only
    split
    · exact goesOn_ok hafter
    · exact goesOn_ok hafter
    · exact goesOn_ok hafter
    · exact goesOn_ok hafter
    · exact goesOn_ok hafter
    · exact goesOn_controlEscape unicode inClass hc h
    · split
      · rename_i found hfound
        exact goesOn_ok (hafter.trans ((advances_hex? hfound).mono (Nat.zero_le _)))
      · split
        · exact goesOn_fail (Nat.le_refl _) h
        · exact goesOn_ok hafter
    · split
      · rename_i found hfound
        exact goesOn_ok (hafter.trans (advances_unicodeEscape? hfound))
      · split
        · exact goesOn_fail (Nat.le_refl _) h
        · exact goesOn_ok hafter
    · split
      · exact goesOn_ok hafter
      · split
        · exact goesOn_ok (advances_octalFrom 3 0 cur)
        · split
          · exact goesOn_fail (Nat.le_refl _) h
          · exact goesOn_ok hafter

end Escapes

/-! ## Classes -/

section Classes

variable {start : Nat} {cur after : Cursor} {s : Settings}

/-- Every item of a class takes a character, also where a backslash stands for itself. -/
theorem goesOn_classAtom (s : Settings) (cur : Cursor) :
    GoesOn 1 cur.pos cur (classAtom s cur) := by
  have hend := cur.pos_le_final
  unfold classAtom
  simp only
  split
  · exact goesOn_fail (Nat.le_refl _) hend
  · rename_i w hrest
    exact goesOn_ok ((advances_of_rest (u := ['\\', 'b']) hrest).mono (by simp))
  · rename_i e w _ hrest
    have htwo : Advances 2 cur (cur.drop 2) := advances_of_rest (u := ['\\', e]) hrest
    have hone : Advances 1 cur (cur.drop 1) := advances_of_rest (u := ['\\']) hrest
    split
    · exact goesOn_ok (htwo.mono (by simp))
    · split
      · refine GoesOn.made (((goesOn_property _ ?_).of_advances htwo).mono (by simp))
          fun _ _ => ⟨_, rfl⟩
        rwa [htwo.final_eq]
      · refine GoesOn.made ((goesOn_characterEscape _ _ ?_).of_advances hone) fun _ _ => ⟨_, rfl⟩
        rwa [hone.final_eq]
  · exact goesOn_fail (Nat.le_refl _) hend
  · rename_i c w _ _ _ hrest
    exact goesOn_ok (advances_of_rest (u := [c]) hrest)

theorem position_of_rangeOf {unicode : Bool} {a b : ClassAtom} {e : SyntaxError}
    (h : rangeOf unicode start a b = .error e) : e.position = start := by
  unfold rangeOf fail at h
  split at h
  · split at h
    · cases h
    · cases h
      rfl
  · split at h
    · cases h
      rfl
    · cases h

theorem goesOn_classItem (s : Settings) (cur : Cursor) :
    GoesOn 1 cur.pos cur (classItem s cur) := by
  refine goesOn_bind (n := 0) (goesOn_classAtom s cur) fun a after hafter => ?_
  simp only
  split
  · rename_i hdash
    have hone : Advances 1 after (after.drop 1) := by
      unfold beforeRangeDash at hdash
      split at hdash
      · rename_i hrest
        exact advances_of_rest (u := ['-']) hrest
      · cases hdash
    have hpos := (hafter.trans hone).pos_le
    refine GoesOn.mono (goesOn_bind (n := 0) (((goesOn_classAtom s (after.drop 1)).weaken
      (by omega)).of_advances hone) fun b last hlast => ?_) (Nat.zero_le _)
    cases hrange : rangeOf s.unicode cur.pos a b with
    | ok ranges => exact goesOn_ok (advances_refl last)
    | error e =>
      refine ⟨Nat.le_of_eq (position_of_rangeOf hrange).symm, ?_⟩
      rw [position_of_rangeOf hrange, hlast.final_eq, hafter.final_eq]
      exact cur.pos_le_final
  · exact goesOn_ok (advances_refl after)

theorem goesOn_classItems (s : Settings) (fuel : Nat) (h : start ≤ cur.pos) :
    GoesOn 0 start cur (classItems s start fuel cur) := by
  have hend := Nat.le_trans h cur.pos_le_final
  induction fuel generalizing cur with
  | zero => exact goesOn_fail (Nat.le_refl _) hend
  | succ fuel ih =>
    unfold classItems
    split
    · exact goesOn_fail (Nat.le_refl _) hend
    · rename_i hc
      exact goesOn_ok ((advances_of_peek? hc).mono (Nat.zero_le _))
    · refine (goesOn_bind (n := 0) ((goesOn_classItem s cur).weaken h)
        fun ranges after hafter => ?_).mono (Nat.zero_le _)
      have hpos := hafter.pos_le
      have hstart : start ≤ after.pos := by omega
      exact (ih hstart (Nat.le_trans hstart after.pos_le_final)).made fun _ _ => ⟨_, rfl⟩

/-- The fuel of a class is never used up. -/
theorem classItems_of_le {fuel fuel' : Nat} (h : cur.rest.length ≤ fuel) (hle : fuel ≤ fuel') :
    classItems s start fuel' cur = classItems s start fuel cur := by
  induction fuel generalizing cur fuel' with
  | zero =>
    cases fuel' with
    | zero => rfl
    | succ fuel' =>
      have hpeek : cur.peek? = none := by
        rw [peek?, List.length_eq_zero_iff.mp (Nat.le_zero.mp h), List.head?_nil]
      rw [classItems, classItems, hpeek]
  | succ fuel ih =>
    obtain ⟨fuel', rfl⟩ := Nat.exists_eq_add_of_le' hle
    rw [← Nat.add_assoc, classItems, classItems]
    split
    · rfl
    · rfl
    · have hitem := goesOn_classItem s cur
      cases hx : classItem s cur with
      | error e => rfl
      | ok found =>
        rw [hx] at hitem
        have hlen := Advances.length_le hitem
        exact congrArg (· >>= fun more : List CodePointRange × Cursor =>
            Except.ok (found.1 ++ more.1, more.2)) (ih (by omega) (Nat.le_add_left ..))

theorem goesOn_charClass (s : Settings) (h : start ≤ cur.pos) :
    GoesOn 0 start cur (charClass s start cur) := by
  unfold charClass
  cases hnegated : cur.skip? "^" with
  | none =>
    exact (goesOn_classItems s _ h).made fun _ _ => ⟨_, rfl⟩
  | some after =>
    have hafter := advances_skip? hnegated
    have hpos := hafter.pos_le
    have hstart : start ≤ after.pos := by omega
    refine GoesOn.mono (GoesOn.of_advances (n := 0) ?_ hafter) (Nat.zero_le _)
    exact (goesOn_classItems s _ hstart).made fun _ _ => ⟨_, rfl⟩

end Classes

/-! ## Atoms -/

section Atoms

variable {start : Nat} {cur after : Cursor} {s : Settings} {c : Char}

theorem goesOn_namedReference (hle : start ≤ cur.pos) :
    GoesOn 0 start cur (namedReference s start cur) := by
  have hend := Nat.le_trans hle cur.pos_le_final
  unfold namedReference
  split
  · exact goesOn_fail (Nat.le_refl _) hend
  · rename_i name hname
    have hopen := advances_skip? hname
    have hpos := hopen.pos_le
    refine GoesOn.mono (GoesOn.of_advances (n := 1) ?_ hopen) (Nat.zero_le _)
    refine goesOn_bind (n := 0) (goesOn_groupName (by omega)) fun n after hafter => ?_
    simp only
    split
    · exact goesOn_ok (advances_refl _)
    · refine goesOn_fail (Nat.le_refl _) ?_
      rwa [hafter.final_eq, hopen.final_eq]

theorem goesOn_numberedReference (hc : cur.peek? = some c) (h : start ≤ cur.final) :
    GoesOn 0 start cur (numberedReference s start c cur) := by
  unfold numberedReference
  split
  · rename_i hnumber
    split
    · exact goesOn_ok ((advances_numeral? hnumber).mono (Nat.zero_le _))
    · split
      · exact goesOn_fail (Nat.le_refl _) h
      · split
        · exact goesOn_ok (advances_octalFrom 3 0 cur)
        · exact goesOn_ok ((advances_of_peek? hc).mono (Nat.zero_le _))
  · exact goesOn_fail (Nat.le_refl _) h

theorem goesOn_atomEscape (h : start ≤ cur.pos) :
    GoesOn 0 start cur (atomEscape s start cur) := by
  have hend := Nat.le_trans h cur.pos_le_final
  have hone : ∀ c, cur.peek? = some c → Advances 0 cur (cur.drop 1) := fun c hc =>
    (advances_of_peek? hc).mono (Nat.zero_le _)
  unfold atomEscape
  split
  · exact goesOn_fail (Nat.le_refl _) hend
  · rename_i hc
    exact goesOn_ok (hone _ hc)
  · rename_i hc
    exact goesOn_ok (hone _ hc)
  · rename_i c _ _ hc
    have hafter := hone c hc
    have hfinal := hafter.final_eq
    split
    · exact goesOn_numberedReference hc hend
    · split
      · exact (goesOn_namedReference (Nat.le_trans h hafter.pos_le)).of_advances hafter
      · split
        · exact ((goesOn_property _ (hfinal ▸ hend)).of_advances hafter).made fun _ _ => ⟨_, rfl⟩
        · split
          · exact goesOn_ok hafter
          · exact (goesOn_characterEscape _ _ hend).made fun _ _ => ⟨_, rfl⟩

theorem goesOn_atom (s : Settings) (hc : cur.peek? = some c) :
    GoesOn 1 cur.pos cur (atom s c cur) := by
  have hend := cur.pos_le_final
  have hone := advances_of_peek? hc
  unfold atom
  simp only
  split
  · exact goesOn_ok hone
  · exact goesOn_ok hone
  · exact (goesOn_atomEscape (Nat.le_of_succ_le hone.pos_le)).of_advances hone
  · exact goesOn_ok hone
  · exact ((goesOn_charClass s (Nat.le_of_succ_le hone.pos_le)).of_advances hone).made
      fun _ _ => ⟨_, rfl⟩
  · exact goesOn_fail (Nat.le_refl _) hend
  · exact goesOn_fail (Nat.le_refl _) hend
  · exact goesOn_fail (Nat.le_refl _) hend
  · split
    · exact goesOn_fail (Nat.le_refl _) hend
    · exact goesOn_ok hone
  · split
    · exact goesOn_fail (Nat.le_refl _) hend
    · exact goesOn_ok hone
  · split
    · exact goesOn_fail (Nat.le_refl _) hend
    · exact goesOn_ok hone
  · exact goesOn_ok hone

end Atoms

/-! ## Quantifiers -/

/-- A fault of the pattern lies between two positions. -/
def FaultBetween (start final : Nat) (x : CompileError) : Prop :=
  ∀ e, x = .malformed e → start ≤ e.position ∧ e.position ≤ final

theorem faultBetween_bailout {start final : Nat} (b : Bailout) :
    FaultBetween start final (.bailout b) := nofun

theorem faultBetween_malformed {start final : Nat} {e : SyntaxError} (h : start ≤ e.position)
    (h' : e.position ≤ final) : FaultBetween start final (.malformed e) := by
  rintro _ ⟨⟩
  exact ⟨h, h'⟩

section Quantifiers

variable {cur after : Cursor} {s : Settings}

theorem advances_bounds? {b : Nat × Option Nat} (h : bounds? cur = some (b, after)) :
    Advances 1 cur after := by
  simp only [bounds?, Option.bind_eq_bind, Option.bind_eq_some_iff, Prod.exists] at h
  obtain ⟨inside, hopen, min, digits, hmin, h⟩ := h
  refine Advances.mono (n := 1 + 0) ?_ (Nat.le_refl _)
  refine (advances_skip? hopen).trans (((advances_numeral? hmin).trans (n := 0) ?_).mono
    (Nat.zero_le _))
  split at h
  · simp only [Option.bind_eq_some_iff] at h
    obtain ⟨last, hclose, h⟩ := h
    obtain ⟨-, rfl⟩ := Prod.mk.inj (Option.some.inj h)
    exact (advances_skip? hclose).mono (Nat.zero_le _)
  · rename_i comma hcomma
    have hafter := (advances_skip? hcomma).mono (Nat.zero_le _)
    split at h
    · rename_i hclose
      obtain ⟨-, rfl⟩ := Prod.mk.inj (Option.some.inj h)
      exact hafter.trans ((advances_skip? hclose).mono (Nat.zero_le _))
    · simp only [Option.bind_eq_some_iff, Prod.exists] at h
      obtain ⟨max, digits, hmax, last, hclose, h⟩ := h
      obtain ⟨-, rfl⟩ := Prod.mk.inj (Option.some.inj h)
      exact hafter.trans (((advances_numeral? hmax).trans (advances_skip? hclose)).mono
        (Nat.zero_le _))

theorem advances_iterations? {b : Nat × Option Nat} (h : iterations? cur = some (b, after)) :
    Advances 1 cur after := by
  unfold iterations? at h
  split at h
  · rename_i hc
    cases h
    exact advances_of_peek? hc
  · rename_i hc
    cases h
    exact advances_of_peek? hc
  · rename_i hc
    cases h
    exact advances_of_peek? hc
  · exact advances_bounds? h
  · cases h

/-- Braces that are no quantifier leave the cursor where it was. -/
theorem advances_quantifier {q? : Option Quantifier} (h : quantifier s cur = .ok (q?, after)) :
    Advances q?.toList.length cur after := by
  unfold quantifier at h
  split at h
  · split at h
    · cases h
    · cases h
      exact advances_refl cur
  · rename_i hit
    have hadv := advances_iterations? hit
    split at h
    · cases h
    · split at h
      · cases h
      · split at h
        · rename_i hlazy
          cases h
          exact (hadv.trans (advances_skip? hlazy)).mono (Nat.le_add_right ..)
        · cases h
          exact hadv

theorem faultBetween_quantifier {e : CompileError} (h : quantifier s cur = .error e) :
    FaultBetween cur.pos cur.final e := by
  have hhere : ∀ fault, FaultBetween cur.pos cur.final (.malformed ⟨cur.pos, fault⟩) := fun _ =>
    faultBetween_malformed (Nat.le_refl _) cur.pos_le_final
  unfold quantifier at h
  split at h
  · split at h
    · cases h
      exact hhere _
    · cases h
  · split at h
    · cases h
      exact hhere _
    · split at h
      · cases h
        exact faultBetween_bailout _
      · split at h <;> cases h

end Quantifiers

end Pattern

end PatternAutomata
