import PatternAutomata.Proofs.Pattern.Desugaring
import PatternAutomata.Proofs.Pattern.Limits
import PatternAutomata.Proofs.Pattern.ReadingAtoms

/-!
# Reading undoes writing

A `View` is what of the state of the reader does not depend on the numbers of nodes: the text that is
left, and outlines in place of nodes. Where a reader shows the view that has a source tree next, it comes
to show the one with the tree read, unless it exceeds a limit. So the written tree is read as what it
stands for, and no budget with enough room makes a difference.
-/

namespace PatternAutomata.Pattern

open Source SourceTerm

variable {s : Settings} {flags : Flags} {a a' : Arena} {w : List Char}

/-! ## Views -/

structure LevelView where
  alternatives : List Outline := []
  terms : List Outline := []

namespace LevelView

def add (v : LevelView) (os : List Outline) : LevelView := { v with terms := v.terms ++ os }

theorem add_add (v : LevelView) (os os' : List Outline) : (v.add os).add os' = v.add (os ++ os') := by
  rw [add, add, add, List.append_assoc]

/-- The alternatives, if this is the end of the last one. -/
def closed (v : LevelView) : List Outline := v.alternatives ++ [.sequence v.terms]

end LevelView

structure FrameView where
  opening : Opening
  firstGroup : Nat
  outer : LevelView

structure View where
  rest : List Char
  names : List (Option String)
  level : LevelView
  frames : List FrameView

structure Level.Shows (a : Arena) (l : Level) (v : LevelView) : Prop where
  alternatives : Grow.AllDrawn v.alternatives l.alternatives.reverse a
  terms : Grow.AllDrawn v.terms l.terms.reverse a

theorem Level.Shows.extends {l : Level} {v : LevelView} (h : l.Shows a v) (ha : a.Ordered)
    (haa' : a.Extends a') : l.Shows a' v :=
  ⟨h.alternatives.extends ha haa', h.terms.extends ha haa'⟩

theorem Level.shows_empty : ({} : Level).Shows a {} := ⟨Grow.allDrawn_nil, Grow.allDrawn_nil⟩

theorem Level.Shows.add {l : Level} {v : LevelView} {ids : List NodeId} {os : List Outline}
    (h : l.Shows a v) (hids : Grow.AllDrawn os ids a) :
    ({ l with terms := ids.reverse ++ l.terms } : Level).Shows a (v.add os) := by
  refine ⟨h.alternatives, ?_⟩
  rw [List.reverse_append, List.reverse_reverse]
  exact h.terms.append hids

structure Frame.Shows (a : Arena) (f : Frame) (v : FrameView) : Prop where
  opening : f.opening = v.opening
  firstGroup : f.firstGroup = v.firstGroup
  outer : f.outer.Shows a v.outer

theorem Frame.Shows.extends {f : Frame} {v : FrameView} (h : f.Shows a v) (ha : a.Ordered)
    (haa' : a.Extends a') : f.Shows a' v := ⟨h.opening, h.firstGroup, h.outer.extends ha haa'⟩

namespace Reader

structure Shows (r : Reader) (v : View) : Prop where
  ordered : r.arena.Ordered
  rest : r.cursor.rest = v.rest
  names : r.names.toList = v.names
  level : r.level.Shows r.arena v.level
  frames : List.Forall₂ (Frame.Shows r.arena) r.frames v.frames

variable {r : Reader} {v v' : View} {Q : Reader → Prop} {text : List Char}
  {names : List (Option String)} {level : LevelView} {frames : List FrameView}

theorem Shows.nextGroup (h : r.Shows v) : r.nextGroup = v.names.length := by
  rw [← h.names, Array.length_toList]
  rfl

theorem Shows.cursor (h : r.Shows v) : r.cursor = ⟨r.cursor.pos, v.rest⟩ := by rw [← h.rest]

theorem Shows.extends (h : r.Shows v) (ha' : a'.Ordered) (haa' : r.arena.Extends a') :
    ({ r with arena := a' } : Reader).Shows v where
  ordered := ha'
  rest := h.rest
  names := h.names
  level := h.level.extends h.ordered haa'
  frames := h.frames.imp fun _ _ hf => hf.extends h.ordered haa'

/-! ## Steps -/

theorem yields_grow {α : Type} {g : Grow α} {P : α → Arena → Prop} (h : r.Shows v)
    (hg : Grow.Ensures g r.arena P) : Yields (r.grow g) fun found =>
      ∃ b, found.2 = { r with arena := b } ∧ r.arena.Extends b ∧ b.Ordered ∧ P found.1 b := by
  obtain ⟨cursor, arena, names, level, frames⟩ := r
  simp only [grow]
  cases hrun : g.run arena with
  | error b => exact .inl ⟨b, rfl⟩
  | ok found =>
    obtain ⟨hext, hordered, hP⟩ := hg found.1 found.2 hrun
    exact .inr ⟨_, rfl, found.2, rfl, hext, hordered, hP⟩

theorem yields_endAlternative (h : r.Shows ⟨text, names, level, frames⟩) :
    Yields r.endAlternative (·.Shows ⟨text, names, { alternatives := level.closed }, frames⟩) := by
  refine (yields_grow h (Grow.ensures_sequence h.ordered h.level.terms)).bind ?_
  rintro ⟨id, _⟩ ⟨b, rfl, hext, hb, hid⟩
  have hr := h.extends hb hext
  refine .inr ⟨_, rfl, hb, hr.rest, hr.names, ⟨?_, Grow.allDrawn_nil⟩, hr.frames⟩
  rw [List.reverse_cons]
  exact hr.level.alternatives.append (Grow.allDrawn_cons.mpr ⟨hid, Grow.allDrawn_nil⟩)

/-- A term that has been read goes to its level, with the quantifier after it. -/
theorem yields_endTerm {q : Option Repetition} {id : NodeId} {x : Outline} {quantifiable : Bool}
    (firstGroup : Nat) (h : r.Shows ⟨repetitionText q ++ w, names, level, frames⟩)
    (hid : Grow.Drawn x id r.arena) (hw : Avoids opensQuantifier w)
    (hq : q.isSome = true → quantifiable = true) :
    Yields (endTerm s id quantifiable firstGroup r) (·.Shows
      ⟨w, names, level.add (Repetition.outlines q firstGroup names.length x), frames⟩) := by
  rw [endTerm, h.cursor]
  refine (yields_quantifier q hw r.cursor.pos).bind ?_
  rintro ⟨q?, cursor⟩ ⟨rfl, hrest⟩
  cases q with
  | none =>
    refine .inr ⟨_, rfl, h.ordered, hrest, h.names, ?_, h.frames⟩
    exact h.level.add (Grow.allDrawn_cons.mpr ⟨hid, Grow.allDrawn_nil⟩)
  | some q =>
    obtain rfl := hq rfl
    have hr : ({ r with cursor } : Reader).Shows ⟨w, names, level, frames⟩ :=
      ⟨h.ordered, hrest, h.names, h.level, h.frames⟩
    refine (yields_grow hr (ensures_quantify h.ordered hid q.quantifier)).bind ?_
    rintro ⟨ids, _⟩ ⟨b, rfl, hext, hb, hids⟩
    have hr' := hr.extends hb hext
    refine .inr ⟨_, rfl, hb, hr'.rest, hr'.names, ?_, hr'.frames⟩
    rw [hr.nextGroup] at hids
    exact hr'.level.add hids

theorem yields_step_atom {q : Option Repetition} {c : Char} {t : Atom} {o : Outline}
    (hopens : opensAtom c = true)
    (hatom : ∀ pos, ∃ pos', atom s c ⟨pos, text⟩ = .ok (t, ⟨pos', repetitionText q ++ w⟩))
    (hleaf : t.kind.children = []) (ho : ∀ below, t.kind.outline below = o)
    (hw : Avoids opensQuantifier w) (hq : q.isSome = true → t.quantifiable = true)
    (h : r.Shows ⟨text, names, level, frames⟩) :
    Yields (r.step s c) (·.Shows
      ⟨w, names, level.add (Repetition.outlines q names.length names.length o), frames⟩) := by
  obtain ⟨pos, hatom⟩ := hatom r.cursor.pos
  have hread : ofReading (atom s c r.cursor) = .ok (t, ⟨pos, repetitionText q ++ w⟩) := by
    rw [h.cursor, hatom]
    rfl
  have hne : c ≠ '|' ∧ c ≠ '(' ∧ c ≠ ')' := by
    refine ⟨?_, ?_, ?_⟩
    all_goals
      rintro rfl
      cases hopens
  obtain ⟨hbar, hopen, hclose⟩ := hne
  unfold step
  split
  · exact absurd rfl hbar
  · exact absurd rfl hopen
  · exact absurd rfl hclose
  · rw [hread]
    refine (yields_grow h (Grow.ensures_add h.ordered (by simp [hleaf]))).bind ?_
    rintro ⟨id, _⟩ ⟨b, rfl, hext, hb, hid⟩
    rw [ho] at hid
    have hr := h.extends hb hext
    have hr' : ({ r with arena := b, cursor := ⟨pos, repetitionText q ++ w⟩ } : Reader).Shows
      ⟨repetitionText q ++ w, names, level, frames⟩ := ⟨hb, rfl, hr.names, hr.level, hr.frames⟩
    have hend := yields_endTerm (s := s) r.nextGroup hr' hid hw hq
    rw [show names.length = r.nextGroup from h.nextGroup.symm] at hend ⊢
    exact hend

theorem yields_step_bar (h : r.Shows ⟨'|' :: w, names, level, frames⟩) : Yields (r.step s '|')
    (·.Shows ⟨w, names, { alternatives := level.closed }, frames⟩) := by
  refine (yields_endAlternative h).bind fun r' hr' => ?_
  have hrest : r'.cursor.rest.drop 1 = w := by
    rw [hr'.rest]
    rfl
  exact .inr ⟨_, rfl, hr'.ordered, hrest, hr'.names, hr'.level, hr'.frames⟩

theorem yields_step_close {q : Option Repetition} {g : Grouping} {next : Nat} {outer : LevelView}
    (hw : Avoids opensQuantifier w) (hq : q.isSome = true → g.quantifiable s.unicode = true)
    (h : r.Shows ⟨')' :: (repetitionText q ++ w), names, level,
      ⟨g.opening next, next, outer⟩ :: frames⟩) :
    Yields (r.step s ')') (·.Shows ⟨w, names, outer.add (Repetition.outlines q next names.length
      (g.outline next names.length level.closed)), frames⟩) := by
  refine (yields_endAlternative h).bind fun r' hr' => ?_
  obtain ⟨f, frames', hf, hframes', hr⟩ := List.forall₂_cons_right_iff.mp hr'.frames
  rw [hr]
  have halternatives : Grow.AllDrawn level.closed r'.level.alternatives.reverse r'.arena :=
    hr'.level.alternatives
  have hopening : f.opening = g.opening f.firstGroup := by rw [hf.opening, hf.firstGroup]
  refine (yields_grow hr' (ensures_groupNode hr'.ordered halternatives hopening)).bind ?_
  rintro ⟨⟨id, quantifiable⟩, _⟩ ⟨b, rfl, hext, hb, hid, rfl⟩
  have hrest : r'.cursor.rest.drop 1 = repetitionText q ++ w := by
    rw [hr'.rest]
    rfl
  have houter : ({ r' with
      cursor := r'.cursor.drop 1, arena := b, level := f.outer, frames := frames' } : Reader).Shows
      ⟨repetitionText q ++ w, names, outer, frames⟩ :=
    ⟨hb, hrest, hr'.names, hf.outer.extends hr'.ordered hext,
      hframes'.imp fun _ _ hf => hf.extends hr'.ordered hext⟩
  have hend := yields_endTerm (s := s) f.firstGroup houter hid hw hq
  rw [show f.firstGroup = next from hf.firstGroup, hr'.nextGroup] at hend
  rw [show f.firstGroup = next from hf.firstGroup]
  exact hend

/-! ### Opening a group -/

theorem yields_openCapture {name : Option String} {cursor : Cursor}
    (hname : ∀ n, name = some n → some n ∉ names) (h : r.Shows ⟨text, names, level, frames⟩) :
    Yields (r.openCapture s name cursor) (·.Shows ⟨cursor.rest, names ++ [name], {},
      ⟨.capture names.length, names.length, level⟩ :: frames⟩) := by
  have hnext : r.nextGroup = names.length := h.nextGroup
  have hfilter : name.filter (fun n => r.names.contains (some n)) = none := by
    refine Option.filter_eq_none_iff.mpr fun n hn => ?_
    rw [← Array.contains_toList, h.names, List.contains_iff_mem]
    exact hname n hn
  unfold openCapture
  by_cases hlimit : s.maxCaptureGroups < r.nextGroup
  · exact .inl ⟨_, if_pos hlimit⟩
  · simp only [if_neg hlimit, hfilter]
    refine .inr ⟨_, rfl, h.ordered, rfl, ?_, Level.shows_empty, .cons ⟨?_, hnext, h.level⟩ h.frames⟩
    · rw [Array.toList_push, h.names]
    · rw [hnext]

theorem shows_openOther (opening : Opening) (cursor : Cursor)
    (h : r.Shows ⟨text, names, level, frames⟩) : (r.openOther opening cursor).Shows
      ⟨cursor.rest, names, {}, ⟨opening, names.length, level⟩ :: frames⟩ :=
  ⟨h.ordered, rfl, h.names, Level.shows_empty, .cons ⟨rfl, h.nextGroup, h.level⟩ h.frames⟩

section Open

variable (hlimit : ¬s.maxNestingDepth ≤ r.frames.length)

include hlimit

theorem openGroup_capture (hw : Avoids (· == '?') w) (hrest : r.cursor.rest = '(' :: w) :
    r.openGroup s = r.openCapture s none ⟨r.cursor.pos + 1, w⟩ := by
  have hdrop : r.cursor.drop 1 = ⟨r.cursor.pos + 1, w⟩ := by
    rw [Cursor.drop, hrest]
    rfl
  have hne : ∀ w', w ≠ '?' :: w' := fun w' hw' => by cases hw '?' (by rw [hw']; rfl)
  unfold openGroup
  rw [if_neg hlimit, hdrop]
  dsimp only
  split
  all_goals
    first
    | exact absurd rfl (hne _)
    | rfl

/-- A name does not begin like a look-behind. -/
theorem openGroup_named (n : Name) (hrest : r.cursor.rest = (Grouping.named n).text ++ w) :
    ∃ pos, r.openGroup s = r.openCapture s (some n.toString) ⟨pos, w⟩ := by
  have hdrop : r.cursor.drop 1 =
      ⟨r.cursor.pos + 1, '?' :: '<' :: (n.first :: n.rest ++ ['>'] ++ w)⟩ := by
    rw [Cursor.drop, hrest]
    rfl
  have hfirst : ∀ c, isNameStart c = false → ∀ w', n.first :: n.rest ++ ['>'] ++ w ≠ c :: w' := by
    intro c hc w' heq
    obtain rfl : n.first = c := (List.cons.inj heq).1
    cases hc.symm.trans n.isNameStart_first
  have hequals := hfirst '=' (isNameStart_eq_false (by decide) (by decide))
  have hbang := hfirst '!' (isNameStart_eq_false (by decide) (by decide))
  obtain ⟨pos, hname⟩ := consumes_groupName n (w := w) (r.cursor.pos + 1 + 2)
  refine ⟨pos, ?_⟩
  unfold openGroup
  rw [if_neg hlimit, hdrop]
  generalize htext : n.first :: n.rest ++ ['>'] ++ w = text at hname hequals hbang
  dsimp only
  split
  · rename_i heq
    cases heq
  · rename_i heq
    cases heq
  · rename_i heq
    cases heq
    exact absurd rfl (hequals _)
  · rename_i heq
    cases heq
    exact absurd rfl (hbang _)
  · rename_i heq
    cases heq
  · show ofReading (groupName ⟨r.cursor.pos + 1 + 2, text⟩) >>= _ = _
    rw [hname]
    rfl
  · rename_i hnot heq
    cases heq
    exact (hnot _ rfl).elim
  · rename_i hnot
    exact (hnot _ rfl).elim

theorem openGroup_other {g : Grouping} (next : Nat) (hg : g.names = [])
    (hrest : r.cursor.rest = g.text ++ w) :
    ∃ pos, r.openGroup s = .ok (r.openOther (g.opening next) ⟨pos, w⟩) := by
  have hdrop : r.cursor.drop 1 = ⟨r.cursor.pos + 1, (g.text ++ w).drop 1⟩ := by
    rw [Cursor.drop, hrest]
  unfold openGroup
  rw [if_neg hlimit, hdrop]
  cases g with
  | plain => exact ⟨_, rfl⟩
  | capture => cases hg
  | named n => cases hg
  | look direction negated => cases direction <;> cases negated <;> exact ⟨_, rfl⟩

end Open

theorem yields_step_open {g : Grouping} (hw : Avoids (· == '?') w)
    (hnames : ∀ n, some n ∈ g.names → some n ∉ names)
    (h : r.Shows ⟨g.text ++ w, names, level, frames⟩) :
    Yields (r.step s '(') (·.Shows ⟨w, names ++ g.names, {},
      ⟨g.opening names.length, names.length, level⟩ :: frames⟩) := by
  show Yields (r.openGroup s) _
  by_cases hlimit : s.maxNestingDepth ≤ r.frames.length
  · refine .inl ⟨Stage.parse.exceeded .nestingDepth, ?_⟩
    unfold openGroup
    rw [if_pos hlimit]
    rfl
  have hother : g.names = [] → Yields (r.openGroup s) (·.Shows ⟨w, names ++ g.names, {},
      ⟨g.opening names.length, names.length, level⟩ :: frames⟩) := by
    intro hg
    obtain ⟨pos, hopen⟩ := openGroup_other hlimit names.length hg h.rest
    rw [hopen, hg, List.append_nil]
    exact .inr ⟨_, rfl, shows_openOther _ _ h⟩
  cases g with
  | plain => exact hother rfl
  | look direction negated => exact hother rfl
  | capture =>
    rw [openGroup_capture hlimit hw h.rest]
    exact yields_openCapture (fun m hm => by cases hm) h
  | named n =>
    obtain ⟨pos, hopen⟩ := openGroup_named hlimit n h.rest
    rw [hopen]
    exact yields_openCapture (fun m hm => hnames m (List.mem_singleton.mpr hm.symm)) h

/-! ### The end -/

theorem yields_finish (h : r.Shows ⟨text, names, level, []⟩) : Yields r.finish fun t =>
    t.outline = .group (.capture 0) 1 names.length level.closed ∧ t.groupNames = names.toArray := by
  refine (yields_endAlternative h).bind fun r' hr' => ?_
  have hframes : r'.frames = [] := List.forall₂_nil_right_iff.mp hr'.frames
  rw [hframes]
  refine (yields_grow hr' (Grow.ensures_group hr'.ordered hr'.level.alternatives)).bind ?_
  rintro ⟨root, _⟩ ⟨b, rfl, hext, hb, hroot⟩
  rw [hr'.nextGroup] at hroot
  dsimp only
  cases hfinish : b.finish root r'.names with
  | error e => exact .inl ⟨e, rfl⟩
  | ok t =>
    obtain ⟨houtline, hnames⟩ := Arena.outline_of_finish hb hroot hfinish
    refine .inr ⟨t, rfl, houtline, hnames.trans ?_⟩
    rw [← show r'.names.toList = names from hr'.names]

/-! ## Runs -/

/-- A reader that shows the view reads on to the end, and `Q` holds of it there. -/
def Reads (s : Settings) (Q : Reader → Prop) (v : View) : Prop :=
  ∀ (r : Reader) (fuel : Nat), r.Shows v → v.rest.length ≤ fuel → Yields (run s fuel r) Q

theorem reads_end (hrest : v.rest = []) (h : ∀ r : Reader, r.Shows v → Q r) : Reads s Q v := by
  intro r fuel hr _
  have hrun : run s fuel r = .ok r := by
    cases fuel with
    | zero => rfl
    | succ fuel => rw [run, Cursor.peek?, hr.rest, hrest]; rfl
  exact .inr ⟨r, hrun, h r hr⟩

theorem reads_of_step {c : Char} {rest : List Char} (hrest : v.rest = c :: rest)
    (hle : v'.rest.length ≤ rest.length)
    (hstep : ∀ r : Reader, r.Shows v → Yields (r.step s c) (·.Shows v')) (h : Reads s Q v') :
    Reads s Q v := by
  intro r fuel hr hfuel
  rw [hrest, List.length_cons] at hfuel
  cases fuel with
  | zero => cases hfuel
  | succ fuel =>
    have hpeek : r.cursor.peek? = some c := by
      rw [Cursor.peek?, hr.rest, hrest]
      rfl
    rw [run, hpeek]
    exact (hstep r hr).bind fun q hq => h q fuel hq (by omega)

end Reader

/-! ## Terms -/

theorem Source.Grouping.exists_text (g : Grouping) : ∃ tail, g.text = '(' :: tail := by
  cases g with
  | look direction negated => cases direction <;> exact ⟨_, rfl⟩
  | _ => exact ⟨_, rfl⟩

theorem avoids_text (b : BracketEscapes) (t : SourceTerm flags.unicode) :
    Avoids opensQuantifier (t.text b ++ w) := by
  cases t with
  | assertion a => cases a <;> exact avoids_cons rfl
  | leaf l q =>
    cases l with
    | char c =>
      cases hc : isSyntaxChar c with
      | true =>
        simp only [SourceTerm.text, Leaf.text, charText, hc]
        exact avoids_cons rfl
      | false =>
        simp only [SourceTerm.text, Leaf.text, charText, hc]
        refine avoids_cons (Bool.eq_false_iff.mpr fun hopens => ?_)
        have hall : "*+?\x7b".toList.all isSyntaxChar = true := rfl
        cases hc.symm.trans (List.all_eq_true.mp hall c (List.contains_iff_mem.mp hopens))
    | dot => exact avoids_cons rfl
    | escape e => exact avoids_cons rfl
    | bracket negated items => exact avoids_cons rfl
  | group g first more q hq =>
    obtain ⟨tail, htail⟩ := g.exists_text
    rw [SourceTerm.text, htail]
    exact avoids_cons rfl

theorem avoids_textAll (b : BracketEscapes) (ts : List (SourceTerm flags.unicode))
    (hw : Avoids opensQuantifier w) : Avoids opensQuantifier (textAll b ts ++ w) := by
  cases ts with
  | nil => exact hw
  | cons t ts =>
    rw [textAll, List.append_assoc]
    exact avoids_text b t

theorem avoids_textMore (b : BracketEscapes) (more : List (List (SourceTerm flags.unicode)))
    (hw : Avoids opensQuantifier w) : Avoids opensQuantifier (textMore b more ++ w) := by
  cases more with
  | nil => exact hw
  | cons ts more =>
    rw [textMore, List.append_assoc]
    exact avoids_cons rfl

/-- No two capture groups have the same name. -/
def Distinct (names : List (Option String)) : Prop := (names.filterMap id).Nodup

theorem Distinct.left {names names' : List (Option String)} (h : Distinct (names ++ names')) :
    Distinct names := by
  rw [Distinct, List.filterMap_append] at h
  exact (List.nodup_append.mp h).1

theorem Distinct.not_mem {names names' : List (Option String)} (h : Distinct (names ++ names')) :
    ∀ n, some n ∈ names' → some n ∉ names := by
  intro n hn' hn
  rw [Distinct, List.filterMap_append] at h
  exact (List.nodup_append.mp h).2.2 n (List.mem_filterMap.mpr ⟨_, hn, rfl⟩) n
    (List.mem_filterMap.mpr ⟨_, hn', rfl⟩) rfl

section Terms

variable {Q : Reader → Prop} {names : List (Option String)} {level : LevelView}
  {frames : List FrameView}

theorem reads_atom {q : Option Repetition} {text : List Char} {t : Atom} {o : Outline}
    (htext : ReadsAtom s text (repetitionText q ++ w) t) (hleaf : t.kind.children = [])
    (ho : ∀ below, t.kind.outline below = o) (hw : Avoids opensQuantifier w)
    (hq : q.isSome = true → t.quantifiable = true)
    (h : Reader.Reads s Q
      ⟨w, names, level.add (Repetition.outlines q names.length names.length o), frames⟩) :
    Reader.Reads s Q ⟨text ++ (repetitionText q ++ w), names, level, frames⟩ := by
  obtain ⟨c, rest, rfl, hopens, hatom⟩ := htext
  have hle : w.length ≤ (rest ++ (repetitionText q ++ w)).length := by
    simp only [List.length_append]
    omega
  exact Reader.reads_of_step rfl hle
    (fun r hr => Reader.yields_step_atom hopens hatom hleaf ho hw hq hr) h

mutual

theorem reads_term (hs : Follows s flags) (b : BracketEscapes) (t : SourceTerm flags.unicode)
    {names : List (Option String)} {level : LevelView} {frames : List FrameView} {w : List Char}
    (hw : Avoids opensQuantifier w) (hnames : Distinct (names ++ t.names))
    (h : Reader.Reads s Q ⟨w, names ++ t.names, level.add (t.outlines flags names.length), frames⟩) :
    Reader.Reads s Q ⟨t.text b ++ w, names, level, frames⟩ := by
  match t with
  | .assertion a =>
    rw [SourceTerm.names, List.append_nil] at h
    exact reads_atom (q := none) (readsAtom_assertion a) rfl (fun _ => rfl) hw nofun h
  | .leaf l q =>
    rw [SourceTerm.names, List.append_nil] at h
    rw [SourceTerm.text, List.append_assoc]
    refine reads_atom (readsAtom_leaf b l) rfl (fun _ => ?_) hw (fun _ => rfl) h
    exact congrArg Outline.charClass (l.members_set hs)
  | .group g first more q hq =>
    rw [SourceTerm.names, ← List.append_assoc, ← List.append_assoc] at hnames h
    have htext : SourceTerm.text b (.group g first more q hq) ++ w = g.text ++
        (textAll b first ++ (textMore b more ++ ')' :: (repetitionText q ++ w))) := by
      simp [SourceTerm.text]
    rw [htext]
    have hclose : Avoids opensQuantifier (textMore b more ++ ')' :: (repetitionText q ++ w)) :=
      avoids_textMore b more (avoids_cons rfl)
    have hquestion : Avoids (· == '?')
        (textAll b first ++ (textMore b more ++ ')' :: (repetitionText q ++ w))) :=
      (avoids_textAll b first hclose).imp fun c hc => by rw [beq_iff_eq.mp hc]; rfl
    obtain ⟨tail, htail⟩ := g.exists_text
    have hle : ∀ u : List Char, u.length ≤ (tail ++ u).length := fun u => by
      rw [List.length_append]
      exact Nat.le_add_left ..
    refine Reader.reads_of_step (by rw [htail]; rfl) (hle _)
      (fun r hr => Reader.yields_step_open hquestion hnames.left.left.not_mem hr) ?_
    refine reads_all hs b first hclose hnames.left ?_
    refine reads_more hs b more (avoids_cons rfl) hnames fun level' hlevel' => ?_
    have hle' : w.length ≤ (repetitionText q ++ w).length := by
      rw [List.length_append]
      exact Nat.le_add_left ..
    refine Reader.reads_of_step rfl hle'
      (fun r hr => Reader.yields_step_close hw (hs.unicode ▸ hq) hr) ?_
    rw [SourceTerm.outlines] at h
    simp only [hlevel', List.length_append]
    exact h

theorem reads_all (hs : Follows s flags) (b : BracketEscapes) (ts : List (SourceTerm flags.unicode))
    {names : List (Option String)} {level : LevelView} {frames : List FrameView} {w : List Char}
    (hw : Avoids opensQuantifier w) (hnames : Distinct (names ++ namesAll ts))
    (h : Reader.Reads s Q
      ⟨w, names ++ namesAll ts, level.add (outlinesAll flags names.length ts), frames⟩) :
    Reader.Reads s Q ⟨textAll b ts ++ w, names, level, frames⟩ := by
  match ts with
  | [] =>
    rw [namesAll, List.append_nil, outlinesAll, LevelView.add, List.append_nil] at h
    exact h
  | t :: ts =>
    rw [namesAll, ← List.append_assoc] at hnames h
    rw [textAll, List.append_assoc]
    refine reads_term hs b t (avoids_textAll b ts hw) hnames.left ?_
    refine reads_all hs b ts hw hnames ?_
    rw [LevelView.add_add, List.length_append]
    exact h

theorem reads_more (hs : Follows s flags) (b : BracketEscapes)
    (more : List (List (SourceTerm flags.unicode))) {names : List (Option String)}
    {level : LevelView} {frames : List FrameView} {w : List Char} (hw : Avoids opensQuantifier w)
    (hnames : Distinct (names ++ namesMore more))
    (h : ∀ level' : LevelView,
      level'.closed = level.closed ++ outlinesMore flags names.length more →
        Reader.Reads s Q ⟨w, names ++ namesMore more, level', frames⟩) :
    Reader.Reads s Q ⟨textMore b more ++ w, names, level, frames⟩ := by
  match more with
  | [] =>
    rw [namesMore, List.append_nil] at h
    exact h level (List.append_nil _).symm
  | ts :: more =>
    rw [namesMore, ← List.append_assoc] at hnames h
    rw [textMore, List.append_assoc]
    refine Reader.reads_of_step rfl (Nat.le_refl _) (fun r hr => Reader.yields_step_bar hr) ?_
    refine reads_all hs b ts (avoids_textMore b more hw) hnames.left ?_
    refine reads_more hs b more hw hnames fun level' hlevel' => h level' ?_
    rw [hlevel', outlinesMore]
    simp [LevelView.closed, LevelView.add]

end

end Terms

/-! ## Patterns -/

theorem reads_source (hs : Follows s flags) (b : BracketEscapes) (p : Source flags.unicode) :
    Reader.Reads s (fun r => ∃ level : LevelView,
      level.closed = .sequence (outlinesAll flags 1 p.first) ::
        outlinesMore flags (1 + (namesAll p.first).length) p.more ∧
      r.Shows ⟨[], p.groupNames, level, []⟩) ⟨(p.render b).toList, [none], {}, []⟩ := by
  have htext : (p.render b).toList = textAll b p.first ++ (textMore b p.more ++ []) := by
    rw [Source.render, String.toList_ofList, List.append_nil]
  have hnames : Distinct ([none] ++ namesAll p.first ++ namesMore p.more) := p.nodup
  have hnil : Avoids opensQuantifier [] := nofun
  rw [htext]
  refine reads_all hs b p.first (avoids_textMore b p.more hnil) hnames.left ?_
  refine reads_more hs b p.more hnil hnames fun level hlevel => ?_
  refine Reader.reads_end rfl fun r hr => ⟨level, hlevel.trans ?_, hr⟩
  rw [List.length_append]
  rfl

/-- Whatever the budget is, only a limit can keep the pattern from being read as what it stands for. -/
theorem yields_parse (budget : Budget) (properties : PropertyLookup) (b : BracketEscapes)
    (p : Source flags.unicode) : Yields (parse (p.render b) flags budget properties) fun t =>
      t.outline = p.outline flags ∧ t.groupNames = p.groupNames.toArray := by
  have hs : Follows (.new flags budget properties (declaredGroups (p.render b).toList)) flags :=
    ⟨rfl, rfl, rfl⟩
  have hempty : ({ limit := budget.maxTreeSize } : Arena).Ordered := fun id c hc => by cases hc
  refine (reads_source hs b p _ _ ⟨hempty, rfl, rfl, Level.shows_empty, .nil⟩ (Nat.le_refl _)).bind ?_
  rintro r ⟨level, hlevel, hr⟩
  have hfinish := Reader.yields_finish hr
  rw [hlevel] at hfinish
  exact hfinish

/-- A lazy quantifier on a named group, whose second alternative is a negated class with an escape. -/
example : Source.render .least (⟨[.group (.named ⟨'_', [], rfl, List.all_eq_true.mp rfl⟩)
      [.leaf (.char '.') none]
      [[.leaf (.bracket true [.range '-' 'z' (by decide), .escape ⟨.digit, false⟩]) none]]
      (some ⟨.atLeast 2, false⟩) fun _ => rfl], [], by decide⟩ : Source true) =
    "(?<_>\\.|[^\\--z\\d])\x7b2,\x7d?" := rfl

end PatternAutomata.Pattern
