import Mathlib.Logic.Relation
import PatternAutomata.Nfa.Walk
import PatternAutomata.Proofs.Results

/-!
# Walks step by step

A walk does one pending task after the other. What each of these steps keeps, a whole walk keeps.
-/

namespace PatternAutomata.Nfa.Walk

variable {n : Nfa} {context : Context} {w w' : Walk}

/-- The first of the tasks is done. -/
inductive Step (n : Nfa) (context : Context) (w w' : Walk) : Prop
  | intro {task : Task} {tasks : List Task} (htasks : w.tasks = task :: tasks)
    (h : step n context task { w with tasks } = .ok w')

/-- A run takes steps. -/
theorem steps_of_run {fuel : Nat} (h : run n context fuel w = .ok w') :
    Relation.ReflTransGen (Step n context) w w' := by
  induction fuel generalizing w with
  | zero =>
    unfold run at h
    split at h
    · cases h
      exact .refl
    · cases h
  | succ fuel ih =>
    unfold run at h
    split at h
    · cases h
      exact .refl
    · rename_i task tasks htasks
      obtain ⟨next, hnext, h⟩ := bind_eq_ok.mp h
      exact .head ⟨htasks, hnext⟩ (ih h)

theorem steps_induction {P : Walk → Prop} (hstep : ∀ {w w'}, P w → Step n context w w' → P w')
    (h : P w) (hsteps : Relation.ReflTransGen (Step n context) w w') : P w' := by
  induction hsteps with
  | refl => exact h
  | tail _ hlast ih => exact hstep ih hlast

end PatternAutomata.Nfa.Walk
