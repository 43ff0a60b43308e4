import PatternAutomata.Proofs.Dfa.Staying
import PatternAutomata.Proofs.Nfa.Runs

/-!
# Room for more states

An automaton that may have more states may also take more work for the transitions of each. What was
within the old limit comes out the same: the walks, the combinations of their routes, and so the
transitions, what trying them finds and what the views lead to.
-/

namespace PatternAutomata

namespace Nfa

variable {n : Nfa} {k : Nat} {context : Context}

/-- The automaton that may have `k` states. -/
def withMaxStates (n : Nfa) (k : Nat) : Nfa := { n with maxStates := k }

theorem workLimit_le (hk : n.maxStates ≤ k) : n.workLimit ≤ (n.withMaxStates k).workLimit :=
  Nat.mul_le_mul_left 64 hk

namespace Walk

theorem step_withMaxStates (hk : n.maxStates ≤ k) {task : Task} {w w' : Walk}
    (h : step n context task w = .ok w') : step (n.withMaxStates k) context task w = .ok w' := by
  cases task with
  | enter id =>
    simp only [step] at h ⊢
    split at h
    · rename_i hwork
      rw [if_pos (Nat.lt_of_lt_of_le hwork (workLimit_le hk))]
      exact h
    · cases h
  | _ => exact h

/-- A walk that ends does the same if it may do more. -/
theorem run_withMaxStates (hk : n.maxStates ≤ k) {fuel fuel' : Nat} (hfuel : fuel ≤ fuel')
    {w w' : Walk} (h : run n context fuel w = .ok w') :
    run (n.withMaxStates k) context fuel' w = .ok w' := by
  induction fuel generalizing fuel' w with
  | zero =>
    unfold run at h
    split at h
    · rename_i hempty
      cases h
      cases fuel' with
      | zero => rw [run, if_pos hempty]
      | succ fuel' => rw [run, List.isEmpty_iff.mp hempty]
    · cases h
  | succ fuel ih =>
    obtain ⟨fuel', rfl⟩ := Nat.exists_eq_add_of_le' (Nat.le_trans (Nat.succ_pos fuel) hfuel)
    unfold run at h ⊢
    split at h
    · exact h
    · obtain ⟨w1, h1, h⟩ := bind_eq_ok.mp h
      exact bind_eq_ok.mpr
        ⟨w1, step_withMaxStates hk h1, ih (Nat.le_of_succ_le_succ hfuel) h⟩

theorem maxTasks_le (hk : n.maxStates ≤ k) : maxTasks n ≤ maxTasks (n.withMaxStates k) :=
  Nat.mul_le_mul_left _ (Nat.add_le_add_right (workLimit_le hk) 2)

end Walk

theorem routes_withMaxStates (hk : n.maxStates ≤ k) {start : Task} {work : Nat}
    {found : List Route × Nat} (h : n.routes context start work = .ok found) :
    (n.withMaxStates k).routes context start work = .ok found := by
  obtain ⟨w, hw, h⟩ := bind_eq_ok.mp h
  exact bind_eq_ok.mpr ⟨w, Walk.run_withMaxStates hk (Walk.maxTasks_le hk) hw, h⟩

theorem mainRoutes_withMaxStates (hk : n.maxStates ≤ k) {s : State} {found : List Route × Nat}
    (h : n.mainRoutes s = .ok found) : (n.withMaxStates k).mainRoutes s = .ok found := by
  unfold mainRoutes at h ⊢
  rw [show (n.withMaxStates k).tree = n.tree from rfl]
  cases hkind : n.tree.kind s.main with
  | matchFound => simpa only [hkind] using h
  | _ =>
    simp only [hkind] at h ⊢
    exact routes_withMaxStates hk h

theorem complete_withMaxStates (hk : n.maxStates ≤ k) {fuel fuel' : Nat} (hfuel : fuel ≤ fuel')
    {c : Combination} {todo : List Task} {f f' : Found}
    (h : complete n context fuel c todo f = .ok f') :
    complete (n.withMaxStates k) context fuel' c todo f = .ok f' := by
  induction fuel generalizing fuel' c todo f f' with
  | zero =>
    unfold complete at h
    cases h
  | succ fuel ih =>
    obtain ⟨fuel', rfl⟩ := Nat.exists_eq_add_of_le' (Nat.le_trans (Nat.succ_pos fuel) hfuel)
    cases todo with
    | nil =>
      rw [complete] at h ⊢
      exact h
    | cons task todo =>
      rw [complete] at h ⊢
      obtain ⟨⟨routes, work⟩, hroutes, h⟩ := bind_eq_ok.mp h
      refine bind_eq_ok.mpr ⟨(routes, work), routes_withMaxStates hk hroutes, ?_⟩
      refine foldlM_eq_ok_mono (fun f r f' _ hr => ?_) h
      rw [show c.addLookAhead? (n.withMaxStates k) r = c.addLookAhead? n r from rfl]
      cases hadd : c.addLookAhead? n r with
      | none => simpa only [hadd] using hr
      | some c =>
        simp only [hadd] at hr ⊢
        exact ih (Nat.le_of_succ_le_succ hfuel) hr

/-- What a state leads to does not depend on how many states there may be beyond those needed. -/
theorem transitions_withMaxStates (hk : n.maxStates ≤ k) {s : State} {ts : List Transition}
    (h : n.transitions s = .ok ts) : (n.withMaxStates k).transitions s = .ok ts := by
  obtain ⟨⟨routes, work⟩, hroutes, h⟩ := bind_eq_ok.mp h
  obtain ⟨found, hfound, h⟩ := bind_eq_ok.mp h
  refine bind_eq_ok.mpr ⟨(routes, work), mainRoutes_withMaxStates hk hroutes,
    bind_eq_ok.mpr ⟨found, foldlM_eq_ok_mono (fun f r f' _ hr => ?_) hfound, h⟩⟩
  exact complete_withMaxStates hk (Nat.add_le_add_right (workLimit_le hk) 2) hr

/-! ## What is found -/

theorem Finds.withMaxStates (hk : n.maxStates ≤ k) {rest : List Char} {tracker : BitSet} {s : State}
    {r : Option (List Boundaries)} (h : n.Finds rest tracker s r) :
    (n.withMaxStates k).Finds rest tracker s r := by
  induction rest generalizing tracker s r with
  | nil =>
    obtain ⟨ts, hts, hfirst⟩ := h
    exact ⟨ts, transitions_withMaxStates hk hts, hfirst⟩
  | cons c rest ih =>
    obtain ⟨ts, hts, hfirst⟩ := h
    refine ⟨ts, transitions_withMaxStates hk hts, hfirst.mono fun t _ r ht => ?_⟩
    unfold Transition.Tries at ht ⊢
    split at ht
    · rename_i hc
      rw [if_pos hc]
      cases htarget : t.target with
      | final => simpa only [htarget] using ht
      | next main lookAheads =>
        simp only [htarget] at ht ⊢
        obtain ⟨r', hr', rfl⟩ := ht
        exact ⟨r', ih hr', rfl⟩
    · rename_i hc
      rw [if_neg hc]
      exact ht

theorem StartFinds.withMaxStates (hk : n.maxStates ≤ k) {input : List Char} {position : Nat}
    {r : Option Captures} (h : n.StartFinds input position r) :
    (n.withMaxStates k).StartFinds input position r := by
  obtain ⟨r', hr', rfl⟩ := h
  exact ⟨r', hr'.withMaxStates hk, rfl⟩

end Nfa

/-! ## Views -/

namespace Dfa.View

variable {n : Nfa} {k : Nat} {U : View → Prop}

/-- Closed views stay closed when there may be more states, and more threads in each. -/
theorem Closed.withMaxStates {sticky : Bool} {maxThreads maxThreads' : Nat}
    (h : Closed n sticky maxThreads U) (hk : n.maxStates ≤ k) (hthreads : maxThreads ≤ maxThreads') :
    Closed (n.withMaxStates k) sticky maxThreads' U where
  dead := h.dead
  rootStart := h.rootStart
  rootMid := h.rootMid
  root := h.root
  lead := h.lead
  search ss injecting tracker hU := by
    obtain ⟨_, ⟨tss, htss, rfl⟩, hleads⟩ := h.search ss injecting tracker hU
    refine ⟨_, ⟨tss, htss.imp fun _ _ => Nfa.transitions_withMaxStates hk, rfl⟩, fun c hc => ?_⟩
    obtain ⟨hcount, hU⟩ := hleads c hc
    exact ⟨Nat.le_trans hcount hthreads, hU⟩

/-- Views that have room under some limits have room under larger ones. -/
theorem Room.withMaxStates {p p' : Plan} (h : Room n U p false) (hk : n.maxStates ≤ k)
    (hsticky : p'.sticky = p.sticky) (hstates : p.maxStates ≤ p'.maxStates)
    (hthreads : p.maxThreads ≤ p'.maxThreads) : Room (n.withMaxStates k) U p' false where
  closed := hsticky ▸ h.closed.withMaxStates hk hthreads
  states ss hss hU := Nat.le_trans (h.states ss hss hU) hk
  keys htraced vs hvs hU := Nat.le_trans (h.keys htraced vs hvs hU) hstates
  stage := nofun

end Dfa.View

end PatternAutomata
