import PatternAutomata.Proofs.Backtrack.Journal

/-!
# Writes beside each other

When look-aheads run beside the match, all writes at one position come before those at the next. So
what an entry is left with was written at the last position at which it was written at all: by a
look-ahead, or by the match itself if no look-ahead has written it there.
-/

namespace PatternAutomata

/-- Entry `i`, which is `e` at first, is left as a value when the match itself writes `own` and each
of `inner` is what a look-ahead writes beside it. -/
inductive Leaves (own : List Write) (inner : List Write → Prop) (i : Nat) (e : Option Nat) :
    Option Nat → Prop
  | inner {ws : List Write} {w : Write} (hws : inner ws) (hw : lastWrite i ws = some w)
    (hinner : ∀ ws' w', inner ws' → lastWrite i ws' = some w' → w'.position ≤ w.position)
    (hown : ∀ w', lastWrite i own = some w' → w'.position ≤ w.position) :
    Leaves own inner i e w.value
  | own {w : Write} (hw : lastWrite i own = some w)
    (hinner : ∀ ws' w', inner ws' → lastWrite i ws' = some w' → w'.position < w.position) :
    Leaves own inner i e w.value
  | nothing (hown : lastWrite i own = none) (hinner : ∀ ws, inner ws → lastWrite i ws = none) :
    Leaves own inner i e e

/-- What look-aheads do not touch is left as the match itself leaves it. -/
theorem Leaves.eq_own {own : List Write} {inner : List Write → Prop} {i : Nat} {v : Option Nat}
    (h : Leaves own inner i none v) (hinner : ∀ ws, inner ws → lastWrite i ws = none) :
    v = (lastWrite i own).bind Write.value := by
  cases h with
  | inner hws hw =>
    rw [hinner _ hws] at hw
    cases hw
  | own hw => rw [hw, Option.bind_some]
  | nothing hown => rw [hown, Option.bind_none]

/-- What an entry is left as after one list of writes and then others. -/
def valueAfter (i : Nat) (e : Option Nat) (parts : List (List Write)) : Option Nat :=
  parts.foldl (fun v ws => (lastWrite i ws).elim v Write.value) e

theorem valueAfter_eq (i : Nat) (e : Option Nat) (parts : List (List Write)) :
    (∃ ws ∈ parts, ∃ w, lastWrite i ws = some w ∧ valueAfter i e parts = w.value) ∨
      (∀ ws ∈ parts, lastWrite i ws = none) ∧ valueAfter i e parts = e := by
  induction parts generalizing e with
  | nil => exact .inr ⟨by simp, rfl⟩
  | cons ws parts ih =>
    have hcons : valueAfter i e (ws :: parts) =
      valueAfter i ((lastWrite i ws).elim e Write.value) parts := rfl
    rw [hcons]
    rcases ih ((lastWrite i ws).elim e Write.value) with ⟨ws', hws', w, hw, heq⟩ | ⟨hnone, heq⟩
    · exact .inl ⟨ws', by simp [hws'], w, hw, heq⟩
    · rw [heq]
      cases hw : lastWrite i ws with
      | none => exact .inr ⟨by simpa [hw] using hnone, rfl⟩
      | some w => exact .inl ⟨ws, by simp, w, hw, rfl⟩

section Before

variable {own own' now : List Write} {inner later : List Write → Prop}
  {parts : List (List Write × List Write)} {p i : Nat} {e v : Option Nat}

/-- All that is written at position `p`, in front of what is written later. The match itself writes
`now`, and each part consists of what a look-ahead writes later and now. -/
structure Precedes (p : Nat) (now : List Write) (parts : List (List Write × List Write))
    (own own' : List Write) (inner later : List Write → Prop) : Prop where
  own_eq : own = own' ++ now
  of_inner : ∀ ws, inner ws → later ws ∨ ∃ part ∈ parts, ws = part.1 ++ part.2
  of_later : ∀ ws, later ws → inner ws ∨ ∃ part ∈ parts, ws = part.1
  inner_part : ∀ part ∈ parts, inner (part.1 ++ part.2)
  later_part : ∀ part ∈ parts, part.1 = [] ∨ later part.1
  now_position : ∀ w ∈ now, w.position = p
  part_position : ∀ part ∈ parts, ∀ w ∈ part.2, w.position = p
  own_position : ∀ w ∈ own', p < w.position
  later_position : ∀ ws, later ws → ∀ w ∈ ws, p < w.position

namespace Precedes

variable (h : Precedes p now parts own own' inner later)
include h

/-- The last write of the match itself comes later, or now if it does not write later. -/
theorem lastWrite_own {w : Write} (hw : lastWrite i own = some w) :
    lastWrite i own' = some w ∨
      lastWrite i own' = none ∧ lastWrite i now = some w ∧ w.position = p := by
  rw [h.own_eq, lastWrite_append, Option.or_eq_some_iff] at hw
  exact hw.imp_right fun ⟨h1, h2⟩ => ⟨h1, h2, h.now_position w (mem_of_lastWrite h2).1⟩

theorem lastWrite_inner {ws : List Write} {w : Write} (hws : inner ws)
    (hw : lastWrite i ws = some w) :
    (∃ ws', later ws' ∧ lastWrite i ws' = some w) ∨ w.position = p := by
  rcases h.of_inner ws hws with hlater | ⟨part, hpart, rfl⟩
  · exact .inl ⟨ws, hlater, hw⟩
  · rw [lastWrite_append, Option.or_eq_some_iff] at hw
    rcases hw with hw | ⟨-, hw⟩
    · refine .inl ⟨part.1, (h.later_part part hpart).resolve_left fun hnil => ?_, hw⟩
      rw [hnil] at hw
      cases hw
    · exact .inr (h.part_position part hpart w (mem_of_lastWrite hw).1)

theorem exists_inner {ws : List Write} {w : Write} (hws : later ws)
    (hw : lastWrite i ws = some w) : ∃ ws', inner ws' ∧ lastWrite i ws' = some w := by
  rcases h.of_later ws hws with hinner | ⟨part, hpart, rfl⟩
  · exact ⟨ws, hinner, hw⟩
  · refine ⟨_, h.inner_part part hpart, ?_⟩
    rw [lastWrite_append, hw, Option.some_or]

/-- Where nothing is written later, the last write of a look-ahead is its last one now. -/
theorem lastWrite_part (hnone : ∀ ws, later ws → lastWrite i ws = none)
    {part : List Write × List Write} (hpart : part ∈ parts) :
    lastWrite i (part.1 ++ part.2) = lastWrite i part.2 := by
  have hfirst : lastWrite i part.1 = none := by
    rcases h.later_part part hpart with hnil | hlater
    · rw [hnil, lastWrite_nil]
    · exact hnone _ hlater
  rw [lastWrite_append, hfirst, Option.none_or]

/-- What is written now counts where nothing is written later. -/
theorem leaves_now (hown : lastWrite i own' = none)
    (hnone : ∀ ws, later ws → lastWrite i ws = none) :
    Leaves own inner i e (valueAfter i e (now :: parts.map Prod.snd)) := by
  have hinner : ∀ ws w, inner ws → lastWrite i ws = some w → w.position = p := by
    intro ws w hws hw
    refine (h.lastWrite_inner hws hw).resolve_left ?_
    rintro ⟨ws', hws', hw'⟩
    rw [hnone ws' hws'] at hw'
    cases hw'
  have hown_eq : lastWrite i own = lastWrite i now := by
    rw [h.own_eq, lastWrite_append, hown, Option.none_or]
  have hsplit : valueAfter i e (now :: parts.map Prod.snd) = valueAfter i
    ((lastWrite i now).elim e Write.value) (parts.map Prod.snd) := rfl
  rw [hsplit]
  rcases valueAfter_eq i ((lastWrite i now).elim e Write.value) (parts.map Prod.snd) with
    ⟨ws, hws, w, hw, heq⟩ | ⟨hall, heq⟩
  · obtain ⟨part, hpart, rfl⟩ := List.mem_map.mp hws
    have hp := h.part_position part hpart w (mem_of_lastWrite hw).1
    rw [heq]
    refine .inner (h.inner_part part hpart) ((h.lastWrite_part hnone hpart).trans hw)
      (fun ws' w' hws' hw' => Nat.le_of_eq ((hinner ws' w' hws' hw').trans hp.symm))
      fun w' hw' => ?_
    rw [hown_eq] at hw'
    exact Nat.le_of_eq ((h.now_position w' (mem_of_lastWrite hw').1).trans hp.symm)
  · have hinner_none : ∀ ws, inner ws → lastWrite i ws = none := by
      intro ws hws
      rcases h.of_inner ws hws with hlater | ⟨part, hpart, rfl⟩
      · exact hnone ws hlater
      · rw [h.lastWrite_part hnone hpart]
        exact hall _ (List.mem_map_of_mem hpart)
    rw [heq]
    cases hw : lastWrite i now with
    | none => exact .nothing (hown_eq.trans hw) hinner_none
    | some w =>
      refine .own (hown_eq.trans hw) fun ws' w' hws' hw' => ?_
      rw [hinner_none ws' hws'] at hw'
      cases hw'

/-- A later write stands, whatever is written now. -/
theorem leaves (hlater : Leaves own' later i
    (valueAfter i e (now :: parts.map Prod.snd)) v) : Leaves own inner i e v := by
  cases hlater with
  | @inner ws w hws hw hle hown =>
    have hp := h.later_position ws hws w (mem_of_lastWrite hw).1
    obtain ⟨ws', hws', hw'⟩ := h.exists_inner hws hw
    refine .inner hws' hw' (fun ws'' w'' hws'' hw'' => ?_) fun w'' hw'' => ?_
    · rcases h.lastWrite_inner hws'' hw'' with ⟨ws, hws, hw⟩ | heq
      · exact hle ws w'' hws hw
      · omega
    · rcases h.lastWrite_own hw'' with hw | ⟨-, -, heq⟩
      · exact hown w'' hw
      · omega
  | @own w hw hlt =>
    have hp := h.own_position w (mem_of_lastWrite hw).1
    refine .own (by rw [h.own_eq, lastWrite_append, hw, Option.some_or]) fun ws'' w'' hws'' hw'' => ?_
    rcases h.lastWrite_inner hws'' hw'' with ⟨ws, hws, hw⟩ | heq
    · exact hlt ws w'' hws hw
    · omega
  | nothing hown hnone => exact h.leaves_now hown hnone

end Precedes

end Before

end PatternAutomata
