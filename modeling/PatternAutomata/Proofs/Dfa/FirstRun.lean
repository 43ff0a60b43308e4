import PatternAutomata.Pattern.Reader
import PatternAutomata.Proofs.Dfa.Scan

/-!
# A search finds the first run

The automaton with slots refines the nondeterministic one: a search gives the captures of the run
that comes first, by where it starts and then by the transitions it chooses, and nothing if there
is no run.
-/

namespace PatternAutomata

open Nfa

/-- A run from a start in the input, with the transitions it chooses and their boundaries. -/
structure SearchRun where
  start : Nat
  choices : List Nat
  boundaries : List Boundaries

namespace SearchRun

/-- The run belongs to a search from `start` on. It starts there if the search is sticky. -/
def Accepts (n : Nfa) (sticky : Bool) (input : List Char) (start : Nat) (r : SearchRun) : Prop :=
  start ≤ r.start ∧ r.start ≤ input.length ∧ (sticky = true → r.start = start) ∧
    Run n (input.drop r.start) (n.lookBehinds.after (input.take r.start))
      (n.initial (n.contextAfter (input.take r.start))) r.choices r.boundaries

/-- The order of preference: by the start, then by the first choice that differs. -/
def Precedes (r r' : SearchRun) : Prop :=
  r.start < r'.start ∨ r.start = r'.start ∧ r.choices < r'.choices

/-- The captures of the run, whose boundaries apply at one position after the other. -/
def captures (n : Nfa) (r : SearchRun) : Captures :=
  replay r.boundaries r.start (.unset n.groupCount)

end SearchRun

/-- What the first run of a search captures, or nothing if there is no run. -/
def FirstCaptures (n : Nfa) (sticky : Bool) (input : List Char) (start : Nat) :
    Option Captures → Prop
  | none => ∀ run : SearchRun, ¬run.Accepts n sticky input start
  | some captures => ∃ run : SearchRun, run.Accepts n sticky input start ∧
    captures = run.captures n ∧
    ∀ run' : SearchRun, run'.Accepts n sticky input start → run' = run ∨ run.Precedes run'

/-- What comes of trying the starts in their order is the first run. -/
theorem firstCaptures_of_startFinds {n : Nfa} {sticky : Bool} {input : List Char} {start : Nat}
    (hstart : start ≤ input.length) {r : Option Captures}
    (h : FirstOf (n.StartFinds input) (starts sticky input.length start) r) :
    FirstCaptures n sticky input start r := by
  have hno : ∀ s, n.StartFinds input s none → ∀ run : SearchRun, run.start = s →
      ¬run.Accepts n sticky input start := by
    rintro s ⟨r', hr', hnone⟩ run rfl ⟨-, -, -, hrun⟩
    cases r' with
    | none => exact firstRun_of_finds hr' _ _ hrun
    | some bs => cases hnone
  cases r with
  | none =>
    intro run hrun
    have hmem := (mem_starts hstart).mpr ⟨hrun.1, hrun.2.1, hrun.2.2.1⟩
    exact hno _ (FirstOf.none_iff.mp h _ hmem) run rfl hrun
  | some captures =>
    obtain ⟨earlier, s, later, heq, hearlier, r', hr', hsome⟩ := FirstOf.some_iff.mp h
    cases r' with
    | none => cases hsome
    | some bs =>
      cases hsome
      obtain ⟨choices, hrun, hmin⟩ := firstRun_of_finds hr'
      have hmem : s ∈ starts sticky input.length start := by simp [heq]
      obtain ⟨h1, h2, h3⟩ := (mem_starts hstart).mp hmem
      refine ⟨⟨s, choices, bs⟩, ⟨h1, h2, h3, hrun⟩, rfl, fun run' hrun' => ?_⟩
      have hmem' := (mem_starts hstart).mpr ⟨hrun'.1, hrun'.2.1, hrun'.2.2.1⟩
      have hsorted := starts_pairwise sticky input.length start
      rw [heq] at hmem' hsorted
      rcases List.mem_append.mp hmem' with hbefore | hafter
      · exact absurd hrun' (hno _ (hearlier _ hbefore) run' rfl)
      · rcases List.mem_cons.mp hafter with heq' | hlater
        · obtain ⟨s', choices', bs'⟩ := run'
          simp only at heq'
          subst heq'
          rcases hmin choices' bs' hrun'.2.2.2 with ⟨rfl, rfl⟩ | hlt
          · exact .inl rfl
          · exact .inr (.inr ⟨rfl, hlt⟩)
        · have hlt := (List.pairwise_cons.mp (List.pairwise_append.mp hsorted).2.1).1 _ hlater
          exact .inr (.inl hlt)

namespace Dfa

end Dfa

end PatternAutomata
