import PatternAutomata.Proofs.Pattern.Names
import PatternAutomata.Proofs.Pattern.Source
import Mathlib.Data.Nat.Digits.Defs

/-!
# Numbers, quantifiers and names are read as written

What a source tree writes is taken by the reader of its kind, up to where it ends: `Consumes` says so of
the readers that look only at the text. It depends on what follows, because a number goes on as long as
there are digits, and a quantifier may have one more sign. `Avoids` says what does not follow.
-/

namespace PatternAutomata.Pattern

/-- Before `w` the reader takes `text`, for `v`. -/
def Consumes {m : Type → Type} [Monad m] {α : Type} (f : Cursor → m (α × Cursor))
    (text w : List Char) (v : α) : Prop :=
  ∀ pos, ∃ pos', f ⟨pos, text ++ w⟩ = pure (v, ⟨pos', w⟩)

/-- What comes next does not begin with a character that `p` holds of. -/
def Avoids (p : Char → Bool) (w : List Char) : Prop := ∀ c ∈ w.head?, p c = false

variable {w : List Char}

theorem avoids_cons {p : Char → Bool} {c : Char} (h : p c = false) : Avoids p (c :: w) := by
  rintro d ⟨⟩
  exact h

theorem Avoids.imp {p p' : Char → Bool} (h : Avoids p w) (hp : ∀ c, p' c = true → p c = true) :
    Avoids p' w :=
  fun c hc => Bool.eq_false_iff.mpr fun hc' => by cases (hp c hc').symm.trans (h c hc)

theorem takeWhile_append_of_avoids {p : Char → Bool} {text : List Char} (h : ∀ c ∈ text, p c = true)
    (hw : Avoids p w) : (text ++ w).takeWhile p = text := by
  have hnone : w.takeWhile p = [] := by
    cases w with
    | nil => rfl
    | cons c w => rw [List.takeWhile_cons, hw c rfl]; rfl
  rw [List.takeWhile_append_of_pos h, hnone, List.append_nil]

/-! ## Numbers -/

theorem digitValue?_of_isDigit {c : Char} (h : c.isDigit = true) :
    Cursor.digitValue? 10 c = some (c.toNat - '0'.toNat) := by
  rw [Char.isDigit, Bool.and_eq_true, decide_eq_true_eq, decide_eq_true_eq] at h
  have hle : '0' ≤ c ∧ c ≤ '9' := h
  have hlt : c.toNat - '0'.toNat < 10 := by
    have : c.toNat ≤ '9'.toNat := hle.2
    have h9 : '9'.toNat = 57 := rfl
    have h0 : '0'.toNat = 48 := rfl
    omega
  simp only [Cursor.digitValue?, if_pos hle, if_pos hlt]

/-- Digits spell the number that they are the digits of, if that is not too large. -/
theorem number_eq_min {digits : List Char} (h : ∀ c ∈ digits, c.isDigit = true) (bound : Nat) :
    Cursor.number 10 bound digits = min (Nat.ofDigitChars 10 digits 0) bound := by
  have hfold : ∀ n, digits.foldl
      (fun n c => min (n * 10 + (Cursor.digitValue? 10 c).getD 0) bound) (min n bound) =
        min (Nat.ofDigitChars 10 digits n) bound := by
    induction digits with
    | nil => exact fun _ => rfl
    | cons c digits ih =>
      intro n
      rw [List.foldl_cons, Nat.ofDigitChars_cons, digitValue?_of_isDigit (h c List.mem_cons_self),
        Option.getD_some, ← ih fun c hc => h c (List.mem_cons_of_mem _ hc)]
      congr 1
      omega
  rw [← hfold 0, Nat.zero_min]
  rfl

theorem consumes_numeral (n : Source.Number) (hw : Avoids (Cursor.isDigit 10) w) :
    Consumes (Cursor.numeral? 10) (Nat.toDigits 10 n) w n.val := by
  intro pos
  have hdigit : ∀ c ∈ Nat.toDigits 10 n, c.isDigit = true := fun c hc =>
    Nat.isDigit_of_mem_toDigits (by decide) (by decide) hc
  have htake : (Nat.toDigits 10 n ++ w).takeWhile (Cursor.isDigit 10) = Nat.toDigits 10 n := by
    refine takeWhile_append_of_avoids (fun c hc => ?_) hw
    rw [Cursor.isDigit, digitValue?_of_isDigit (hdigit c hc)]
    rfl
  have hvalue : Cursor.number 10 Cursor.maxNumber (Nat.toDigits 10 n) = n := by
    rw [number_eq_min hdigit, Nat.ofDigitChars_toDigits (by decide) (by decide)]
    exact Nat.min_eq_left (Nat.le_of_lt_succ n.isLt)
  refine ⟨pos + (Nat.toDigits 10 n).length, ?_⟩
  rw [Cursor.numeral?, Cursor.takeWhile]
  simp only [htake]
  cases hdigits : Nat.toDigits 10 n with
  | nil => exact absurd hdigits Nat.toDigits_ne_nil
  | cons c digits =>
    simp only [← hdigits, hvalue, Cursor.drop, List.drop_left]
    rfl

/-! ## Quantifiers -/

open Source

/-- A text of one character is not there if another one comes next. -/
theorem skip?_eq_none {text : String} {c : Char} {pos : Nat} (htext : text.toList = [c])
    (hw : Avoids (· == c) w) : Cursor.skip? ⟨pos, w⟩ text = none := by
  rw [Cursor.skip?, htext]
  cases w with
  | nil => rfl
  | cons d w =>
    have hd := hw d rfl
    refine if_neg fun h => ?_
    simp only [List.isPrefixOf, Bool.and_true, beq_iff_eq] at h
    simp [h] at hd

theorem skip?_toDigits_eq_none {text : String} {c : Char} {pos : Nat} (n : Nat)
    (htext : text.toList = [c]) (hc : c.isDigit = false) :
    Cursor.skip? ⟨pos, Nat.toDigits 10 n ++ w⟩ text = none := by
  refine skip?_eq_none htext fun d hd => ?_
  have hmem : d ∈ Nat.toDigits 10 n := by
    rw [List.head?_append_of_ne_nil _ Nat.toDigits_ne_nil] at hd
    exact List.mem_of_mem_head? hd
  have hdigit := Nat.isDigit_of_mem_toDigits (by decide) (by decide) hmem
  refine beq_false_of_ne ?_
  rintro rfl
  cases hc.symm.trans hdigit

theorem consumes_iterations (k : Count) : Consumes iterations? k.text w (k.min, k.max) := by
  intro pos
  have hbrace : ∀ v, Avoids (Cursor.isDigit 10) ('\x7d' :: v) := fun v => avoids_cons rfl
  have hcomma : ∀ v, Avoids (Cursor.isDigit 10) (',' :: v) := fun v => avoids_cons rfl
  have hopen : ∀ (p : Nat) (v : List Char),
      Cursor.skip? ⟨p, '\x7b' :: v⟩ "\x7b" = some ⟨p + 1, v⟩ := fun _ _ => rfl
  cases k with
  | exactly n =>
    obtain ⟨pos', hn⟩ := consumes_numeral n (hbrace w) (pos + 1)
    have htext : (Count.exactly n).text ++ w = '\x7b' :: (Nat.toDigits 10 n ++ '\x7d' :: w) := by
      simp [Count.text]
    refine ⟨pos' + 1, htext ▸ show bounds? _ = _ from ?_⟩
    rw [bounds?, hopen, Option.bind_eq_bind, Option.bind_some, hn]
    rfl
  | atLeast n =>
    obtain ⟨pos', hn⟩ := consumes_numeral n (hcomma ('\x7d' :: w)) (pos + 1)
    have htext : (Count.atLeast n).text ++ w =
        '\x7b' :: (Nat.toDigits 10 n ++ ',' :: '\x7d' :: w) := by
      simp [Count.text]
    refine ⟨pos' + 2, htext ▸ show bounds? _ = _ from ?_⟩
    rw [bounds?, hopen, Option.bind_eq_bind, Option.bind_some, hn]
    rfl
  | between n m h =>
    obtain ⟨pos1, hn⟩ := consumes_numeral n (hcomma (Nat.toDigits 10 m ++ '\x7d' :: w)) (pos + 1)
    obtain ⟨pos2, hm⟩ := consumes_numeral m (hbrace w) (pos1 + 1)
    have htext : (Count.between n m h).text ++ w =
        '\x7b' :: (Nat.toDigits 10 n ++ ',' :: (Nat.toDigits 10 m ++ '\x7d' :: w)) := by
      simp [Count.text]
    -- The greatest number comes next, not the end.
    have hnot : Cursor.skip? ⟨pos1 + 1, Nat.toDigits 10 m ++ '\x7d' :: w⟩ "\x7d" = none :=
      skip?_toDigits_eq_none m rfl rfl
    have hcut : Cursor.skip? ⟨pos1, ',' :: (Nat.toDigits 10 m ++ '\x7d' :: w)⟩ "," =
        some ⟨pos1 + 1, Nat.toDigits 10 m ++ '\x7d' :: w⟩ := rfl
    refine ⟨pos2 + 1, htext ▸ show bounds? _ = _ from ?_⟩
    rw [bounds?, hopen, Option.bind_eq_bind, Option.bind_some, hn]
    simp only [Option.pure_def, Option.bind_eq_bind, Option.bind_some, hcut, hnot]
    rw [hm]
    rfl
  | _ => exact ⟨pos + 1, rfl⟩

/-- Whether a quantifier may begin with the character. -/
def opensQuantifier (c : Char) : Bool := "*+?\x7b".toList.contains c

theorem iterations?_eq_none {pos : Nat} (hw : Avoids opensQuantifier w) :
    iterations? ⟨pos, w⟩ = none := by
  have hhead : ∀ c, opensQuantifier c = true → w.head? ≠ some c := fun c hc h => by
    rw [hw c h] at hc
    cases hc
  rw [iterations?]
  split
  · rename_i h
    exact absurd h (hhead _ rfl)
  · rename_i h
    exact absurd h (hhead _ rfl)
  · rename_i h
    exact absurd h (hhead _ rfl)
  · rename_i h
    exact absurd h (hhead _ rfl)
  · rfl

theorem Source.Count.any_lt_min (k : Count) : k.max.any (· < k.min) = false := by
  cases k with
  | exactly n => exact decide_eq_false (Nat.lt_irrefl _)
  | between n m h => exact decide_eq_false (Nat.not_lt.mpr h)
  | _ => rfl

/-- The computation succeeds with a result that `P` holds of, unless it exceeds a limit. -/
def Yields {α : Type} (x : Except CompileError α) (P : α → Prop) : Prop :=
  (∃ b, x = .error (.bailout b)) ∨ ∃ a, x = .ok a ∧ P a

theorem Yields.bind {α β : Type} {x : Except CompileError α} {f : α → Except CompileError β}
    {P : α → Prop} {R : β → Prop} (hx : Yields x P) (hf : ∀ a, P a → Yields (f a) R) :
    Yields (x >>= f) R := by
  rcases hx with ⟨b, rfl⟩ | ⟨a, rfl, ha⟩
  · exact .inl ⟨b, rfl⟩
  · exact hf a ha

theorem yields_quantifier {s : Settings} (q : Option Repetition) (hw : Avoids opensQuantifier w)
    (pos : Nat) : Yields (quantifier s ⟨pos, SourceTerm.repetitionText q ++ w⟩) fun found =>
      found.1 = q.map Repetition.quantifier ∧ found.2.rest = w := by
  cases q with
  | none =>
    refine .inr ⟨(none, ⟨pos, w⟩), ?_, rfl, rfl⟩
    have hbrace : ¬(s.unicode = true ∧ w.head? = some '\x7b') := fun h => by
      cases hw _ h.2
    simp only [quantifier, SourceTerm.repetitionText, Option.elim_none, List.nil_append,
      iterations?_eq_none hw]
    exact if_neg hbrace
  | some q =>
    obtain ⟨pos', hcount⟩ :=
      consumes_iterations (w := (if q.greedy then [] else ['?']) ++ w) q.count pos
    have htext : SourceTerm.repetitionText (some q) ++ w =
        q.count.text ++ ((if q.greedy then [] else ['?']) ++ w) := List.append_assoc ..
    simp only [htext, quantifier, hcount, Option.pure_def, Count.any_lt_min]
    rw [if_neg Bool.false_ne_true]
    by_cases hexceeds : exceedsCount s
        ⟨pos, q.count.text ++ ((if q.greedy then [] else ['?']) ++ w)⟩ q.count.min q.count.max = true
    · exact .inl ⟨_, if_pos hexceeds⟩
    · rw [if_neg hexceeds]
      obtain ⟨count, greedy⟩ := q
      cases greedy with
      | true =>
        have hnone : Cursor.skip? ⟨pos', w⟩ "?" = none := skip?_eq_none rfl fun c hc =>
          beq_false_of_ne fun h => by cases h ▸ hw c hc
        simp only [if_true, List.nil_append, hnone]
        exact .inr ⟨_, rfl, rfl, rfl⟩
      | false => exact .inr ⟨_, rfl, rfl, rfl⟩

/-! ## Names -/

theorem groupName_eq (n : Name) (pos : Nat) (w : List Char) :
    groupName ⟨pos, n.first :: n.rest ++ '>' :: w⟩ =
      .ok (n.toString, ⟨pos + (n.rest.length + 1) + 1, w⟩) := by
  have htake : (n.first :: n.rest ++ '>' :: w).takeWhile isNamePart = n.first :: n.rest :=
    takeWhile_append_of_avoids n.isNamePart (avoids_cons isNamePart_close)
  have hskip : ∀ p, Cursor.skip? ⟨p, '>' :: w⟩ ">" = some ⟨p + 1, w⟩ := fun _ => rfl
  rw [groupName, Cursor.takeWhile]
  simp only [htake, Cursor.drop, List.drop_left, hskip, n.isNameStart_first, if_true]
  rfl

theorem consumes_groupName (n : Name) :
    Consumes groupName (n.first :: n.rest ++ ['>']) w n.toString := by
  intro pos
  have htext : n.first :: n.rest ++ ['>'] ++ w = n.first :: n.rest ++ '>' :: w := by simp
  exact ⟨_, htext ▸ groupName_eq n pos w⟩

end PatternAutomata.Pattern
