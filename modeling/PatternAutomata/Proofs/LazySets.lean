import Mathlib.Order.BooleanAlgebra.Set
import Mathlib.Logic.Function.Basic
import PatternAutomata.CodePoint.Lazy
import PatternAutomata.Proofs.CodePoints

/-!
# Lazy sets are a Boolean algebra

There is only one normal form of a set. So although sets are put in normal form only when they are
asked, and although union, intersection and complement only claim that their ranges are in normal form,
sets that were made in any way are equal if and only if they have the same members.

`Command` has all ways to make a set and to change one. `Represents` relates a set to the set of numbers
that it stands for. Each command keeps the relation (`Command.represents_run`), so every run does
(`RepresentsAll.foldl`), and `lawful_runAll` reads off what holds of the sets that a run makes.
-/

namespace PatternAutomata

open CodePointSet

namespace LazySet

variable {rs : List CodePointRange} {c : Nat}

theorem isNormal_iff : isNormal rs = true ↔ CodePointSet.Normal rs := by
  induction rs with
  | nil => simp [isNormal, CodePointSet.Normal]
  | cons r rs ih =>
    cases rs with
    | nil => simp [isNormal, CodePointSet.Normal]
    | cons s rs =>
      rw [isNormal, Bool.and_eq_true, decide_eq_true_eq, ih]
      constructor
      · rintro ⟨hlt, h⟩
        refine List.pairwise_cons.mpr ⟨fun t ht => ?_, h⟩
        rcases List.mem_cons.mp ht with rfl | ht
        · exact hlt
        · have := (List.pairwise_cons.mp h).1 t ht
          have := s.lo_le_hi
          omega
      · intro h
        exact ⟨(List.pairwise_cons.mp h).1 s List.mem_cons_self, h.of_cons⟩

/-- Only the first range that does not end before `c` can have it. -/
theorem any_head?_dropWhile (h : CodePointSet.Normal rs) :
    (((rs.dropWhile (·.hi < c)).head?).any (·.contains c)) = true ↔ Covers rs c := by
  induction rs with
  | nil => simp
  | cons r rs ih =>
    rw [List.dropWhile_cons, covers_cons]
    by_cases hlt : r.hi < c
    · rw [if_pos (by simpa using hlt), ih h.of_cons, or_iff_right (by omega)]
    · rw [if_neg (by simpa using hlt), List.head?_cons, Option.any_some,
        CodePointRange.contains_iff]
      refine (or_iff_left fun hc => ?_).symm
      have := lt_of_covers h hc
      omega

/-! ## What a set stands for -/

/-- A set of numbers, and whether it may be changed. -/
structure Meaning where
  members : Set Nat
  frozen : Bool

/-- The lazy set stands for the members, and its ranges are what it claims. -/
structure Represents (s : LazySet) (d : Meaning) : Prop where
  frozen_eq : s.frozen = d.frozen
  normal : s.normalized = true → CodePointSet.Normal s.ranges
  covers_iff : ∀ c, Covers s.ranges c ↔ c ∈ d.members

/-- The numbers up to `maxCodePoint`. -/
def codePoints : Set Nat := {c | c ≤ maxCodePoint}

namespace Represents

variable {s t u : LazySet} {d e f : Meaning}

theorem normal_normalForm (h : Represents s d) : CodePointSet.Normal s.normalForm := by
  unfold normalForm
  split
  · exact h.normal ‹_›
  · exact (CodePointSet.ofRanges s.ranges).normal

theorem covers_normalForm (h : Represents s d) : Covers s.normalForm c ↔ c ∈ d.members := by
  rw [← h.covers_iff, normalForm]
  split
  · rfl
  · exact mem_iff.symm.trans mem_ofRanges

/-- The set of its members, in normal form. -/
def set (h : Represents s d) : CodePointSet := ⟨s.normalForm, h.normal_normalForm⟩

theorem mem_set (h : Represents s d) : c ∈ h.set ↔ c ∈ d.members := mem_iff.trans h.covers_normalForm

theorem contains_iff (h : Represents s d) : s.contains c = true ↔ c ∈ d.members :=
  (any_head?_dropWhile h.normal_normalForm).trans h.covers_normalForm

theorem normalForm_eq_iff (hs : Represents s d) (ht : Represents t e) :
    s.normalForm = t.normalForm ↔ d.members = e.members := by
  constructor
  · intro heq
    ext c
    rw [← hs.covers_normalForm, heq, ht.covers_normalForm]
  · intro heq
    refine eq_of_covers_iff hs.normal_normalForm ht.normal_normalForm fun c => ?_
    rw [hs.covers_normalForm, heq, ht.covers_normalForm]

/-- Sets are equal if and only if they have the same members. -/
theorem beq_iff (hs : Represents s d) (ht : Represents t e) :
    (s == t) = true ↔ d.members = e.members := by
  show (s.normalForm == t.normalForm) = true ↔ _
  rw [beq_iff_eq, hs.normalForm_eq_iff ht]

/-- A set made of ranges in normal form. -/
theorem ofNormal {r : CodePointSet} {m : Set Nat} (h : ∀ c, c ∈ r ↔ c ∈ m) :
    Represents { ranges := r.ranges } ⟨m, false⟩ :=
  ⟨rfl, fun _ => r.normal, fun c => mem_iff.symm.trans (h c)⟩

theorem ofRanges (rs : List CodePointRange) :
    Represents (.ofRanges rs) ⟨{c | Covers rs c}, false⟩ :=
  ⟨rfl, isNormal_iff.mp, fun _ => Iff.rfl⟩

theorem add (h : Represents s d) (hd : d.frozen = false) {rs : List CodePointRange}
    {more : Set Nat} (hmore : ∀ c, Covers rs c ↔ c ∈ more) :
    Represents (s.add rs).2 ⟨d.members ∪ more, false⟩ := by
  rw [LazySet.add, h.frozen_eq, hd, if_neg Bool.false_ne_true]
  refine ⟨rfl, nofun, fun c => ?_⟩
  rw [covers_append, h.covers_iff, hmore, Set.mem_union]

theorem add_of_frozen (h : Represents s d) (hd : d.frozen = true) (rs : List CodePointRange) :
    s.add rs = (.error .frozen, s) := by
  rw [LazySet.add, h.frozen_eq, if_pos hd]

theorem normalize (h : Represents s d) : Represents s.normalize d :=
  ⟨h.frozen_eq, fun _ => h.normal_normalForm, fun _ => h.covers_normalForm⟩

theorem freeze (h : Represents s d) : Represents s.freeze ⟨d.members, true⟩ :=
  ⟨rfl, fun _ => h.normal_normalForm, fun _ => h.covers_normalForm⟩

theorem union (hs : Represents s d) (ht : Represents t e) :
    Represents (s.union t) ⟨d.members ∪ e.members, false⟩ :=
  ofNormal (r := hs.set.union ht.set) fun c => by
    rw [mem_union, hs.mem_set, ht.mem_set, Set.mem_union]

theorem inter (hs : Represents s d) (ht : Represents t e) :
    Represents (s.inter t) ⟨d.members ∩ e.members, false⟩ :=
  ofNormal (r := hs.set.inter ht.set) fun c => by
    rw [Set.mem_inter_iff, ← hs.mem_set, ← ht.mem_set]
    exact (Bool.eq_iff_iff.mp (contains_inter ..)).trans (Bool.and_eq_true_iff)

theorem compl (hs : Represents s d) (hd : d.members ⊆ codePoints) :
    Represents s.compl ⟨codePoints \ d.members, false⟩ :=
  ofNormal (r := hs.set.compl) fun c => by
    rw [mem_compl fun c hc => hd (hs.mem_set.mp hc), Set.mem_sdiff, hs.mem_set]
    rfl

theorem isEmpty_iff (h : Represents s d) : s.isEmpty = true ↔ d.members = ∅ := by
  rw [LazySet.isEmpty, List.isEmpty_iff, Set.eq_empty_iff_forall_notMem]
  constructor
  · intro heq c hc
    rw [← h.covers_iff, heq] at hc
    exact covers_nil hc
  · intro hempty
    cases hranges : s.ranges with
    | nil => rfl
    | cons r rs =>
      refine absurd ((h.covers_iff r.lo).mp ?_) (hempty r.lo)
      rw [hranges, covers_cons]
      exact .inl ⟨Nat.le_refl _, r.lo_le_hi⟩

end Represents

/-! ## Laws -/

/-- The laws of union and intersection. -/
structure DistributiveLaws (s t u : LazySet) : Prop where
  union_union_self : (s.union t).union s == s.union t
  inter_union : s.inter (t.union u) == (s.inter t).union (s.inter u)
  union_inter : s.union (t.inter u) == (s.union t).inter (s.union u)

/-- The laws of the complement. -/
structure ComplementLaws (s t : LazySet) : Prop where
  inter_compl : (s.inter s.compl).isEmpty
  compl_compl : s.compl.compl == s
  compl_union : (s.union t).compl == s.compl.inter t.compl
  compl_inter : (s.inter t).compl == s.compl.union t.compl

namespace Represents

variable {s t u : LazySet} {d e f : Meaning}

theorem distributiveLaws (hs : Represents s d) (ht : Represents t e) (hu : Represents u f) :
    DistributiveLaws s t u where
  union_union_self := ((hs.union ht).union hs).beq_iff (hs.union ht) |>.mpr <| by
    rw [Set.union_right_comm, Set.union_self]
  inter_union := (hs.inter (ht.union hu)).beq_iff ((hs.inter ht).union (hs.inter hu)) |>.mpr <|
    Set.inter_union_distrib_left ..
  union_inter := (hs.union (ht.inter hu)).beq_iff ((hs.union ht).inter (hs.union hu)) |>.mpr <|
    Set.union_inter_distrib_left ..

theorem complementLaws (hs : Represents s d) (ht : Represents t e) (hd : d.members ⊆ codePoints)
    (he : e.members ⊆ codePoints) : ComplementLaws s t := by
  have hs' := hs.compl hd
  have ht' := ht.compl he
  have hunion := (hs.union ht).compl (Set.union_subset hd he)
  have hinter := (hs.inter ht).compl (Set.inter_subset_left.trans hd)
  refine ⟨(hs.inter hs').isEmpty_iff.mpr (Set.inter_sdiff_self ..),
    ((hs'.compl Set.sdiff_subset).beq_iff hs).mpr (sdiff_sdiff_eq_self hd),
    (hunion.beq_iff (hs'.inter ht')).mpr sdiff_sup,
    (hinter.beq_iff (hs'.union ht')).mpr sdiff_inf⟩

end Represents

/-! ## Registers -/

/-- What a set stands for after an attempt to add members. -/
def Meaning.add (d : Meaning) (more : Set Nat) : Meaning :=
  if d.frozen then d else { d with members := d.members ∪ more }

variable {regs : Nat → LazySet} {d : Nat → Meaning}

/-- Each register stands for what it should. -/
def RepresentsAll (regs : Nat → LazySet) (d : Nat → Meaning) : Prop :=
  ∀ a, Represents (regs a) (d a)

theorem RepresentsAll.update (h : RepresentsAll regs d) {s : LazySet} {e : Meaning}
    (hs : Represents s e) (dest : Nat) :
    RepresentsAll (Function.update regs dest s) (Function.update d dest e) := by
  intro a
  by_cases ha : a = dest
  · subst ha
    rwa [Function.update_self, Function.update_self]
  · rw [Function.update_of_ne ha, Function.update_of_ne ha]
    exact h a

theorem RepresentsAll.add (h : RepresentsAll regs d) {rs : List CodePointRange} {more : Set Nat}
    (hmore : ∀ c, Covers rs c ↔ c ∈ more) (a : Nat) :
    RepresentsAll (Function.update regs a ((regs a).add rs).2)
      (Function.update d a ((d a).add more)) := by
  refine h.update ?_ a
  cases hfrozen : (d a).frozen with
  | false =>
    rw [Meaning.add, hfrozen, if_neg Bool.false_ne_true]
    exact (h a).add hfrozen hmore
  | true =>
    rw [(h a).add_of_frozen hfrozen, Meaning.add, if_pos hfrozen]
    exact h a

/-! ## Commands -/

/-- What can be done with sets that are kept in numbered registers. -/
inductive Command where
  | ofRanges (rs : List CodePointRange) (dest : Nat)
  | addRange (a : Nat) (r : CodePointRange)
  | addSet (a b : Nat)
  | normalize (a : Nat)
  | freeze (a : Nat)
  | copy (a dest : Nat)
  | union (a b dest : Nat)
  | inter (a b dest : Nat)
  | compl (a dest : Nat)

namespace Command

open Function

/-- The registers after the command. -/
def run (regs : Nat → LazySet) : Command → Nat → LazySet
  | ofRanges rs dest => update regs dest (.ofRanges rs)
  | addRange a r => update regs a ((regs a).addRange r).2
  | addSet a b => update regs a ((regs a).addSet (regs b)).2
  | normalize a => update regs a (regs a).normalize
  | freeze a => update regs a (regs a).freeze
  | copy a dest => update regs dest (regs a)
  | union a b dest => update regs dest ((regs a).union (regs b))
  | inter a b dest => update regs dest ((regs a).inter (regs b))
  | compl a dest => update regs dest (regs a).compl

/-- What the registers stand for after the command. -/
def denote (d : Nat → Meaning) : Command → Nat → Meaning
  | ofRanges rs dest => update d dest ⟨{c | ∃ r ∈ rs, r.lo ≤ c ∧ c ≤ r.hi}, false⟩
  | addRange a r => update d a ((d a).add {c | r.lo ≤ c ∧ c ≤ r.hi})
  | addSet a b => update d a ((d a).add (d b).members)
  | normalize _ => d
  | freeze a => update d a ⟨(d a).members, true⟩
  | copy a dest => update d dest (d a)
  | union a b dest => update d dest ⟨(d a).members ∪ (d b).members, false⟩
  | inter a b dest => update d dest ⟨(d a).members ∩ (d b).members, false⟩
  | compl a dest => update d dest ⟨codePoints \ (d a).members, false⟩

/-- Only a set of code points may be complemented. -/
def Allowed (d : Nat → Meaning) : Command → Prop
  | compl a _ => (d a).members ⊆ codePoints
  | _ => True

theorem represents_run (h : RepresentsAll regs d) {cmd : Command} (hcmd : cmd.Allowed d) :
    RepresentsAll (cmd.run regs) (cmd.denote d) := by
  cases cmd with
  | ofRanges rs dest => exact h.update (.ofRanges rs) dest
  | addRange a r => exact h.add (fun c => by simp) a
  | addSet a b => exact h.add (fun c => (h b).covers_normalForm) a
  | normalize a =>
    have := h.update (h a).normalize a
    rwa [update_eq_self] at this
  | freeze a => exact h.update (h a).freeze a
  | copy a dest => exact h.update (h a) dest
  | union a b dest => exact h.update ((h a).union (h b)) dest
  | inter a b dest => exact h.update ((h a).inter (h b)) dest
  | compl a dest => exact h.update ((h a).compl hcmd) dest

/-- A command that adds to a frozen set changes nothing. -/
theorem run_of_frozen {a : Nat} (h : (regs a).frozen = true) :
    (∀ r, (addRange a r).run regs = regs) ∧ ∀ b, (addSet a b).run regs = regs := by
  have hadd : ∀ rs, update regs a ((regs a).add rs).2 = regs := fun rs => by
    rw [LazySet.add, if_pos h, update_eq_self]
  exact ⟨fun r => hadd [r], fun b => hadd (regs b).normalForm⟩

end Command

/-! ## Runs -/

open Command

/-- The registers after the commands. At the start all sets are empty. -/
def runAll (cmds : List Command) : Nat → LazySet := cmds.foldl run fun _ => {}

def allEmpty : Nat → Meaning := fun _ => ⟨∅, false⟩

/-- What the registers stand for after the commands. -/
def denoteAll (cmds : List Command) : Nat → Meaning := cmds.foldl denote allEmpty

theorem runAll_concat (cmds : List Command) (cmd : Command) :
    runAll (cmds ++ [cmd]) = cmd.run (runAll cmds) := List.foldl_append

/-- Each command is allowed when its turn comes. -/
def AllAllowed (d : Nat → Meaning) : List Command → Prop
  | [] => True
  | cmd :: cmds => cmd.Allowed d ∧ AllAllowed (cmd.denote d) cmds

theorem RepresentsAll.foldl {cmds : List Command} (h : RepresentsAll regs d) (hcmds : AllAllowed d cmds) :
    RepresentsAll (cmds.foldl run regs) (cmds.foldl denote d) := by
  induction cmds generalizing regs d with
  | nil => exact h
  | cons cmd cmds ih => exact ih (represents_run h hcmds.1) hcmds.2

theorem represents_start : RepresentsAll (fun _ => {}) allEmpty :=
  fun _ => ⟨rfl, fun _ => .nil, fun _ => iff_of_false covers_nil id⟩

/-- Sets made by any commands are in normal form when they say so, contain what they stand for, are
equal if and only if they have the same members, hash alike when they are equal, refuse changes when
they are frozen, and obey the laws of sets. -/
theorem lawful_runAll (cmds : List Command) (hcmds : AllAllowed allEmpty cmds) (a b c : Nat) :
    let regs := runAll cmds
    let members := fun i => (denoteAll cmds i).members
    ((regs a).normalized = true → CodePointSet.Normal (regs a).ranges) ∧
    (∀ x, (regs a).contains x = true ↔ x ∈ members a) ∧
    ((regs a == regs b) = true ↔ members a = members b) ∧
    ((regs a == regs b) = true → ∀ {σ : Type} (hasher : Hasher σ) (state : σ),
      hash hasher (regs a) state = hash hasher (regs b) state) ∧
    ((regs a).frozen = (denoteAll cmds a).frozen) ∧
    ((regs a).frozen = true →
      (∀ r, (regs a).addRange r = (.error .frozen, regs a)) ∧
      (regs a).addSet (regs b) = (.error .frozen, regs a) ∧
      (∀ r, runAll (cmds ++ [.addRange a r]) = regs) ∧ runAll (cmds ++ [.addSet a b]) = regs) ∧
    DistributiveLaws (regs a) (regs b) (regs c) ∧
    (members a ⊆ codePoints → members b ⊆ codePoints → ComplementLaws (regs a) (regs b)) := by
  intro regs members
  have h : RepresentsAll regs (denoteAll cmds) := represents_start.foldl hcmds
  refine ⟨(h a).normal, fun _ => (h a).contains_iff, (h a).beq_iff (h b), fun heq σ hasher state => ?_,
    (h a).frozen_eq, fun hfrozen => ?_, (h a).distributiveLaws (h b) (h c), (h a).complementLaws (h b)⟩
  · have hforms : (regs a).normalForm = (regs b).normalForm :=
      ((h a).normalForm_eq_iff (h b)).mpr (((h a).beq_iff (h b)).mp heq)
    rw [hash, hash, hforms]
  · have hrun := run_of_frozen hfrozen
    have hadd := fun rs => (h a).add_of_frozen ((h a).frozen_eq.symm.trans hfrozen) rs
    exact ⟨fun r => hadd [r], hadd _, fun r => (runAll_concat ..).trans (hrun.1 r),
      (runAll_concat ..).trans (hrun.2 b)⟩

/-- A set that was frozen, would not take a range, and was complemented twice. -/
theorem lawful_runAll_frozen :
    let cmds : List Command := [.ofRanges [⟨8, 12, by decide⟩, ⟨5, 9, by decide⟩] 0, .freeze 0,
      .addRange 0 ⟨20, 30, by decide⟩, .compl 0 1, .compl 1 2]
    AllAllowed allEmpty cmds ∧ (runAll cmds 0).frozen = true ∧
      (∀ r, runAll (cmds ++ [.addRange 0 r]) = runAll cmds) ∧
      (runAll cmds 2 == runAll cmds 0) = true ∧
      ComplementLaws (runAll cmds 0) (runAll cmds 0) := by
  intro cmds
  have hwithin : (denoteAll cmds 0).members ⊆ codePoints := by
    rintro c ⟨r, hr, -, hhi⟩
    refine hhi.trans ?_
    simp only [List.mem_cons, List.not_mem_nil, or_false] at hr
    rcases hr with rfl | rfl <;> decide
  have hallowed : AllAllowed allEmpty cmds :=
    ⟨trivial, trivial, trivial, hwithin, Set.sdiff_subset, trivial⟩
  have hmembers : (denoteAll cmds 2).members = (denoteAll cmds 0).members :=
    sdiff_sdiff_eq_self hwithin
  obtain ⟨-, -, hbeq, -⟩ := lawful_runAll cmds hallowed 2 0 0
  obtain ⟨-, -, -, -, hfrozen, hrefused, -, hlaws⟩ := lawful_runAll cmds hallowed 0 0 0
  have hfrozen : (runAll cmds 0).frozen = true := hfrozen
  exact ⟨hallowed, hfrozen, (hrefused hfrozen).2.2.1, hbeq.mpr hmembers, hlaws hwithin hwithin⟩

end LazySet

end PatternAutomata
