import Mathlib.Data.Finset.Card
import PatternAutomata.Proofs.Nfa.Branches

/-!
# Without loops a pattern only goes on

When no group loops, a branch never comes back to what it has passed: every class that it can still
come to stands under the node that it enters, or in a later term. So with every character that is
consumed, by the pattern or by one of its look-aheads, at least one class less lies ahead, and nothing
that takes part in a match consumes more characters than there are classes in the pattern. What lies
ahead of a look-ahead lies ahead of the place where it begins to run, so this holds of look-aheads
that begin later, and of those that outlive the pattern.
-/

namespace PatternAutomata

namespace Tree

/-- The classes of the pattern. -/
def classes (t : Tree) : List NodeId :=
  t.reachable.filter fun id => match t.kind id with
    | .charClass _ => true
    | _ => false

variable {t : Tree} {id : NodeId}

theorem mem_classes : id ∈ t.classes ↔ id ∈ t.reachable ∧ ∃ set, t.kind id = .charClass set := by
  rw [classes, List.mem_filter]
  refine and_congr_right fun _ => ?_
  split
  · rename_i set hset
    exact ⟨fun _ => ⟨set, hset⟩, fun _ => rfl⟩
  · rename_i hne
    exact ⟨nofun, fun ⟨set, hset⟩ => absurd hset (hne set)⟩

theorem length_classes_le_size (t : Tree) : t.classes.length ≤ t.size :=
  calc t.classes.length ≤ t.reachable.length := List.length_filter_le ..
    _ ≤ (List.range t.size).length := List.length_filter_le ..
    _ = t.size := List.length_range

/-- No class stands under the end of a match. -/
theorem not_under_matchFound {c : NodeId} (hid : t.kind id = .matchFound) (hc : c ∈ t.classes) :
    ¬ t.Under id c := by
  obtain ⟨-, set, hset⟩ := mem_classes.mp hc
  intro hunder
  rcases Relation.ReflTransGen.cases_head hunder with rfl | ⟨d, hd, -⟩
  · cases hid.symm.trans hset
  · rw [hid] at hd
    cases hd

theorem isLoop_of_isLoopFree {g : Group} (h : t.isLoopFree = true) (hg : t.kind id = .group g) :
    g.isLoop = false := by
  rw [kind, Array.getD_eq_getD_getElem?] at hg
  cases hget : t.kinds[id]? with
  | none => simp [hget] at hg
  | some k =>
    obtain rfl : k = .group g := by simpa [hget] using hg
    have hall := Array.all_eq_true_iff_forall_mem.mp h _ (Array.mem_of_getElem? hget)
    simpa using hall

end Tree

namespace Nfa

/-! ## What lies ahead -/

/-- A branch that does the task may still come to the node. -/
def Task.Ahead (t : Tree) (task : Task) (c : NodeId) : Prop :=
  match task with
  | .enter id => t.Before id c ∨ t.Under id c
  | .leave id | .finishAlternative id => t.Before id c
  | _ => False

open Classical in
/-- How many classes lie ahead. -/
noncomputable def Task.classesAhead (t : Tree) (task : Task) : Nat :=
  (t.classes.toFinset.filter (task.Ahead t)).card

variable {t : Tree} {s s' : Stop} {task task' : Task} {id : NodeId} {k : Nat}

open Classical in
theorem Task.classesAhead_le (h : ∀ c ∈ t.classes, task.Ahead t c → task'.Ahead t c) :
    task.classesAhead t ≤ task'.classesAhead t := by
  refine Finset.card_le_card fun c hc => ?_
  rw [Finset.mem_filter, List.mem_toFinset] at hc ⊢
  exact ⟨hc.1, h c hc.1 hc.2⟩

open Classical in
theorem Task.classesAhead_le_length (t : Tree) (task : Task) :
    task.classesAhead t ≤ t.classes.length :=
  Nat.le_trans (Finset.card_filter_le _ _) (List.toFinset_card_le _)

theorem Task.after_of_isLoopFree (h : t.isLoopFree = true) (group : NodeId) :
    Task.after t group = .leave group := by
  unfold Task.after
  rw [if_neg]
  cases hg : t.group? group with
  | none => simp
  | some g => simp [Tree.isLoop_of_isLoopFree h (Tree.group?_eq_some.mp hg)]

/-- A branch only comes to what has lain ahead before. -/
theorem Moves.ahead (h : t.WellFormed) (hloops : t.isLoopFree = true) (hmove : Moves t s s')
    {c : NodeId} (hc : c ∈ t.classes) (hahead : s'.task.Ahead t c) : s.task.Ahead t c := by
  cases hmove with
  | pass | skip | empty => exact .inl hahead
  | @first id a first g p hg ha hfirst =>
    have hgroup := h.parent_alternative hg ha
    have hunder : t.Under id a := Tree.under_child (Tree.mem_children_of_alternative hg ha)
    rcases hahead with hbefore | hbelow
    -- What comes after the first term stands in the alternative, or comes after the group.
    · rcases h.before_parent hbefore (h.parent_of_term hfirst) with ha' | ⟨_, _, _, _, -, hy, hyc⟩
      · exact .inl (h.before_of_parent ha' hgroup (by rw [Tree.terms, hg]))
      · exact .inr ((hunder.trans (Tree.under_term hy)).trans hyc)
    · exact .inr ((hunder.trans (Tree.under_term hfirst)).trans hbelow)
  | found hparent =>
    rcases hahead with ⟨_, hx, _, hxm, _⟩ | hbelow
    -- The end of the pattern has no parent, so it is not under a term.
    · cases h.eq_of_under_of_parent_none hxm h.matchFound_parent
      cases h.matchFound_parent.symm.trans (h.parent_of_term hx)
    · exact absurd hbelow (Tree.not_under_matchFound h.matchFound hc)
  | @held id look l p hparent hl =>
    have hfound := h.parent_matchFound hl
    rcases hahead with hbefore | hbelow
    · have hlook := h.before_of_parent hbefore hfound (by rw [Tree.terms, hl])
      exact hlook.under (Tree.under_child (h.child_of_parent look id hparent))
    · exact absurd hbelow (Tree.not_under_matchFound (h.kind_matchFound hl) hc)
  | @next id a group next k p hk hgroup hnext hlive =>
    rcases hahead with hbefore | hbelow
    · rcases h.before_parent hbefore (h.parent_of_term hnext) with ha | ⟨i, j, y, hij, hi, hy, hyc⟩
      · exact ha.under (Tree.under_term hk)
      · have hindex := (h.index_term a i next hi).symm.trans (h.index_term a (k + 1) next hnext)
        exact ⟨by omega, hk, hy, .refl t id, hyc⟩
    · exact ⟨Nat.lt_succ_self k, hk, hnext, .refl t id, hbelow⟩
  | last hk hgroup hlive =>
    rw [Task.after_of_isLoopFree hloops] at hahead
    exact (Tree.Before.under hahead (Tree.under_child (h.child_of_parent _ _ hgroup))).under
      (Tree.under_term hk)
  | finish =>
    rw [Task.after_of_isLoopFree hloops] at hahead
    exact hahead

open Classical in
/-- With the class itself, one class less lies ahead after it. -/
theorem classesAhead_leave_lt (h : t.WellFormed) (hid : id ∈ t.classes) :
    (Task.leave id).classesAhead t < (Task.enter id).classesAhead t := by
  refine Finset.card_lt_card (Finset.ssubset_iff.mpr ⟨id, ?_, fun c hc => ?_⟩)
  · rw [Finset.mem_filter]
    exact fun hmem => h.not_before_self hmem.2
  · rw [Finset.mem_filter, List.mem_toFinset]
    rcases Finset.mem_insert.mp hc with rfl | hc
    · exact ⟨hid, .inr (.refl t c)⟩
    · rw [Finset.mem_filter, List.mem_toFinset] at hc
      exact ⟨hc.1, .inl hc.2⟩

/-- What lies ahead in the body of a look-ahead lies ahead where the look-ahead begins. -/
theorem classesAhead_body_le (h : t.WellFormed) {l : LookAround} (hl : t.kind id = .look l) :
    (Task.enter l.body).classesAhead t ≤ (Task.enter id).classesAhead t := by
  have hchild : l.body ∈ (t.kind id).children := by rw [hl]; exact List.mem_cons_self
  refine Task.classesAhead_le fun c _ hc => ?_
  rcases hc with hbefore | hbelow
  · exact .inl (h.before_of_parent hbefore (h.parent_child id _ hchild) (by rw [Tree.terms, hl]))
  · exact .inr ((Tree.under_child hchild).trans hbelow)

/-! ## Along a walk -/

/-- After `k` characters, no more classes lie ahead than are left. -/
def Task.HasRoom (t : Tree) (k : Nat) (task : Task) : Prop :=
  k + task.classesAhead t ≤ t.classes.length

structure Route.HasRoom (n : Nfa) (k : Nat) (r : Route) : Prop where
  goal : ∀ id, r.goal = .consume id → (Task.leave id).HasRoom n.tree (k + 1)
  spawned : ∀ id ∈ r.spawned, (n.runTask id).HasRoom n.tree k

section Walks

variable {n : Nfa} {context : Context} (hn : n.tree.WellFormed)
  (hloops : n.tree.isLoopFree = true)
include hn

/-- Consuming a class takes one character, and the class is left behind. -/
theorem hasRoom_leave (hgoal : (Goal.consume id).Fits n.tree)
    (hroom : (Task.enter id).HasRoom n.tree k) : (Task.leave id).HasRoom n.tree (k + 1) := by
  obtain ⟨hid, hclass⟩ := hgoal
  have hlt := classesAhead_leave_lt hn (Tree.mem_classes.mpr ⟨hn.mem_reachable hid.inPattern, hclass⟩)
  unfold Task.HasRoom at hroom ⊢
  omega

theorem hasRoom_runTask (hid : n.tree.AtLookAhead id) (hroom : (Task.enter id).HasRoom n.tree k) :
    (n.runTask id).HasRoom n.tree k := by
  obtain ⟨-, l, hl, -⟩ := hid
  rw [runTask, hl]
  exact Nat.le_trans (Nat.add_le_add_left (classesAhead_body_le hn hl) k) hroom

include hloops

theorem hasRoom_of_routes (htask : task.Pending n.tree) (hroom : task.HasRoom n.tree k) {work : Nat}
    {found : List Route × Nat} (h : n.routes context task work = .ok found) :
    ∀ r ∈ found.1, r.HasRoom n k := by
  have hfits := fits_of_routes hn htask h
  obtain ⟨w, hw, hfound⟩ := exists_reached h
  have halong := Walk.Along.of_reached (B := fun s => s.task.HasRoom n.tree k) hn
    (fun s s' hs hmove => Nat.le_trans (Nat.add_le_add_left (Task.classesAhead_le fun c hc hahead =>
      (hmove.moves hn).ahead hn hloops hc hahead) k) hs)
    (fun s hs => mem_stops_singleton hs ▸ hroom) hw
  intro r hr
  obtain ⟨hgoal, hspawned⟩ := halong.routes r (by simpa [hfound] using hr)
  refine ⟨fun id hid => ?_, fun id hid => ?_⟩
  · obtain ⟨p, henter⟩ := hgoal id hid
    exact hasRoom_leave hn (hid ▸ (hfits r hr).goal) henter
  · obtain ⟨p, henter⟩ := hspawned id hid
    exact hasRoom_runTask hn ((hfits r hr).spawned id hid) henter

theorem leads_hasRoom : Leads n context (fun task => task.Pending n.tree ∧ task.HasRoom n.tree k)
    (fun r => r.Fits n.tree ∧ r.HasRoom n k) where
  routes _ htask _ _ h r hr :=
    ⟨fits_of_routes hn htask.1 h r hr, hasRoom_of_routes hn hloops htask.1 htask.2 h r hr⟩
  spawned _ hr id hid := ⟨pending_runTask (hr.1.spawned id hid), hr.2.spawned id hid⟩

/-! ## From state to state -/

omit hn hloops

/-- A state in which nothing has consumed more than `k` characters, and each of its parts has left that
many classes behind. -/
structure State.HasRoom (t : Tree) (k : Nat) (s : State) : Prop where
  count : k ≤ t.classes.length
  resume : ∀ set, t.kind s.main = .charClass set → (Task.leave s.main).HasRoom t k
  enter : (∀ set, t.kind s.main ≠ .charClass set) → t.kind s.main ≠ .matchFound →
    (Task.enter s.main).HasRoom t k
  lookAheads : ∀ id ∈ s.lookAheads, (Task.leave id).HasRoom t k

theorem hasRoom_zero (t : Tree) (task : Task) : task.HasRoom t 0 := by
  rw [Task.HasRoom, Nat.zero_add]
  exact task.classesAhead_le_length t

theorem hasRoom_initial (n : Nfa) (context : Context) : (n.initial context).HasRoom n.tree 0 :=
  ⟨Nat.zero_le _, fun _ _ => hasRoom_zero .., fun _ _ => hasRoom_zero .., nofun⟩

/-- All that a combination consumes leaves room. -/
structure Combination.HasRoom (t : Tree) (k : Nat) (c : Combination) : Prop where
  main : ∀ id, c.main = some id → (Task.leave id).HasRoom t k
  lookAheads : ∀ id ∈ c.lookAheads, (Task.leave id).HasRoom t k

theorem Combination.HasRoom.ofMain {r : Route} (hr : r.HasRoom n k) :
    (Combination.ofMain n r).HasRoom n.tree (k + 1) := by
  refine ⟨fun id hid => hr.goal id ?_, nofun⟩
  unfold Combination.ofMain Combination.addRoute at hid
  cases hgoal : r.goal with
  | done => simp [hgoal] at hid
  | consume id' => simpa [hgoal] using hid

theorem Combination.HasRoom.addLookAhead? {c c' : Combination} {r : Route}
    (h : c.HasRoom n.tree (k + 1)) (hr : r.HasRoom n k) (hc' : c.addLookAhead? n r = some c') :
    c'.HasRoom n.tree (k + 1) := by
  rw [Combination.addLookAhead?_eq_some hc']
  unfold Combination.withLookAhead
  split
  · rename_i id hid
    refine ⟨h.main, fun id' hid' => ?_⟩
    rcases mem_insertAscending.mp hid' with rfl | hid'
    · exact hr.goal id' hid
    · exact h.lookAheads id' hid'
  · exact ⟨h.main, h.lookAheads⟩

theorem Combination.HasRoom.transition {c : Combination} (h : c.HasRoom n.tree k) {main : NodeId}
    {lookAheads : List NodeId} (htarget : (c.transition n).target = .next main lookAheads) :
    k ≤ n.tree.classes.length ∧ (main = n.tree.matchFound ∨ (Task.leave main).HasRoom n.tree k) ∧
      ∀ id ∈ lookAheads, (Task.leave id).HasRoom n.tree k := by
  have hcount : ∀ {id}, (Task.leave id).HasRoom n.tree k → k ≤ n.tree.classes.length :=
    fun hid => Nat.le_trans (Nat.le_add_right ..) hid
  unfold Combination.transition at htarget
  simp only at htarget
  split at htarget
  · cases htarget
  · rename_i hnone
    cases htarget
    cases hmain : c.main with
    | some id =>
      have hid := h.main id hmain
      exact ⟨hcount hid, .inr hid, h.lookAheads⟩
    | none =>
      refine ⟨?_, .inl rfl, h.lookAheads⟩
      cases hlookAheads : c.lookAheads with
      | nil => exact absurd hlookAheads (hnone hmain)
      | cons id ids => exact hcount (h.lookAheads id (by rw [hlookAheads]; exact List.mem_cons_self))

include hn hloops

theorem hasRoom_of_mainRoutes {s : State} (hs : s.Fits n.tree) (hroom : s.HasRoom n.tree k)
    {found : List Route × Nat} (h : n.mainRoutes s = .ok found) : ∀ r ∈ found.1, r.HasRoom n k := by
  unfold mainRoutes at h
  split at h
  · cases h
    exact List.forall_mem_singleton.mpr ⟨nofun, nofun⟩
  · rename_i set hset
    exact hasRoom_of_routes hn hloops (StartTask.resume hset |>.pending hn hs)
      (hroom.resume set hset) h
  · rename_i hfound hclass
    exact hasRoom_of_routes hn hloops (StartTask.enter hclass hfound |>.pending hn hs)
      (hroom.enter hclass hfound) h

/-- A transition consumes one character, and whatever it leads to has left one class more behind. -/
theorem hasRoom_of_transitions {s : State} (hs : s.Fits n.tree) (hroom : s.HasRoom n.tree k)
    {ts : List Transition} (hts : n.transitions s = .ok ts) {transition : Transition}
    (ht : transition ∈ ts) {main : NodeId} {lookAheads : List NodeId}
    (htarget : transition.target = .next main lookAheads) (context : Context) :
    State.HasRoom n.tree (k + 1) { main, lookAheads, context } := by
  have hmains : ∀ found, n.mainRoutes s = .ok found →
      ∀ r ∈ found.1, r.Fits n.tree ∧ r.HasRoom n k := fun found h r hr =>
    ⟨fits_of_mainRoutes hn hs h r hr, hasRoom_of_mainRoutes hn hloops hs hroom h r hr⟩
  obtain ⟨hcount, hresume, hlookAheads⟩ := transitions_induction
    (P := Combination.HasRoom n.tree (k + 1)) (leads_hasRoom hn hloops) hmains
    (fun id hid => ⟨hs.lookAheads id hid, hroom.lookAheads id hid⟩) (fun r hr => .ofMain hr.2)
    (fun c r c' hc hr hc' => hc.addLookAhead? hr.2 hc')
    (Q := fun transition => ∀ main lookAheads, transition.target = .next main lookAheads →
      k + 1 ≤ n.tree.classes.length ∧ (main = n.tree.matchFound ∨
        (Task.leave main).HasRoom n.tree (k + 1)) ∧
      ∀ id ∈ lookAheads, (Task.leave id).HasRoom n.tree (k + 1))
    (fun c hc main lookAheads htarget => hc.transition htarget) hts transition ht main lookAheads
    htarget
  obtain ⟨hmain, -⟩ := goals_of_transitions hn hs hts ht htarget
  refine ⟨hcount, fun set hset => hresume.resolve_left ?_, fun hclass hfound => ?_, hlookAheads⟩
  · rintro rfl
    cases hn.matchFound.symm.trans hset
  · rcases hmain with rfl | ⟨-, set, hset⟩
    · exact absurd hn.matchFound hfound
    · exact absurd hset (hclass set)

end Walks

end Nfa

end PatternAutomata
