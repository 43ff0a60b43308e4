import PatternAutomata.Proofs.Dfa.SplittingWork

/-!
# Automata that need no splitting

An automaton is reducible if every loop has a state, its header, at which alone some loop around it
can be entered. A pass over a reducible automaton copies nothing: a loop around one of the components
lies in the component, as it lies in every region before it, and else it would be entered at the
header that the region lacks.
-/

namespace PatternAutomata.Dfa

/-- A search can come to the state from outside of `M`: it is a root, or a state outside of `M` leads
there, whether or not that state can be reached. -/
def EntersAt (d : Dfa) (M : Set StateId) (i : StateId) : Prop :=
  i ∈ M ∧ (i = d.rootStart ∨ i = d.rootMid ∨ ∃ p ∉ M, i ∈ (d.state p).successors)

/-- Every loop has a header: a state of it at which alone some loop around it can be entered. -/
def Reducible (d : Dfa) : Prop :=
  ∀ L, d.IsLoop L → ∃ M, d.IsLoop M ∧ L ⊆ M ∧ ∃ header ∈ L, ∀ i, d.EntersAt M i → i = header

namespace Splitting

variable {d : Dfa} {s : Splitting} {region component : List StateId} {i : StateId}

/-! ## Components are loops -/

theorem mem_entries_iff (hlt : ∀ i ∈ component, i < s.size) :
    i ∈ s.entries s.graph.transpose component ↔
      (d.withStates s).EntersAt {i | i ∈ component} i := by
  constructor
  · intro hi
    obtain ⟨hmem, hentry⟩ := List.mem_filter.mp hi
    refine ⟨hmem, ?_⟩
    rcases Bool.or_eq_true_iff.mp hentry with hroot | hback
    · rcases Bool.or_eq_true_iff.mp hroot with h | h
      · exact .inl (eq_of_beq h)
      · exact .inr (.inl (eq_of_beq h))
    · obtain ⟨p, hp, hout⟩ := List.any_eq_true.mp hback
      have hedge : i ∈ s.successors p := next_graph ▸ (Graph.mem_next_transpose.mp hp).1
      refine .inr (.inr ⟨p, fun hin => ?_, hedge⟩)
      rw [flags_iff.mpr ⟨hin, lt_size_of_mem_successors hedge⟩] at hout
      cases hout
  · rintro ⟨hmem, hentry⟩
    refine mem_entries hmem (hlt i hmem) (hentry.imp_right (Or.imp_right ?_))
    rintro ⟨p, hp, hedge⟩
    exact ⟨p, hedge, hp⟩

theorem lt_size_of_component (hc : component ∈ (s.regionGraph region).components region) :
    ∀ i ∈ component, i < s.size := by
  obtain ⟨-, hmem, -⟩ := Graph.components_spec (s.regionGraph region) region
  rw [size_regionGraph] at hmem
  exact fun i hi => ((hmem i).mp (List.mem_flatten_of_mem hc hi)).2

theorem nodup_component (hc : component ∈ (s.regionGraph region).components region) :
    component.Nodup :=
  (List.pairwise_flatten.mp (Graph.components_spec (s.regionGraph region) region).1).1 _ hc

/-- The states of a component reach each other within it. -/
theorem reaches_component (hc : component ∈ (s.regionGraph region).components region)
    {a b : StateId} (ha : a ∈ component) (hb : b ∈ component) :
    Relation.ReflTransGen (fun i j => i ∈ component ∧ j ∈ component ∧ j ∈ s.successors i) a b := by
  obtain ⟨-, -, hlinked⟩ := Graph.components_spec (s.regionGraph region) region
  have hjoins := ((hlinked component hc a ha b).mp hb).strengthen.1
  refine hjoins.induction .refl fun i j hi hedge hj hpath => hpath.tail ⟨?_, ?_, ?_⟩
  · exact (hlinked component hc a ha i).mpr hi.right
  · exact (hlinked component hc a ha j).mpr hj
  · exact (mem_next_regionGraph.mp hedge).1

theorem isLoop_of_component (hc : component ∈ (s.regionGraph region).components region)
    (hloop : s.isLoop component = true) (hne : component ≠ []) :
    (d.withStates s).IsLoop {i | i ∈ component} where
  nonempty := List.exists_mem_of_ne_nil _ hne
  reaches := by
    intro a ha b hb
    have hother : ∀ {a b : StateId}, a ∈ component → b ∈ component → a ≠ b →
        Relation.TransGen (fun i j => i ∈ component ∧ j ∈ component ∧ j ∈ s.successors i) a b :=
      fun ha hb hab => (Relation.reflTransGen_iff_eq_or_transGen.mp
        (reaches_component hc ha hb)).resolve_left (Ne.symm hab)
    by_cases hab : a = b
    · subst hab
      by_cases hsingle : ∃ c ∈ component, a ≠ c
      · obtain ⟨c, hcmem, hac⟩ := hsingle
        exact (hother ha hcmem hac).trans (hother hcmem ha (Ne.symm hac))
      · -- The component is the state alone, which leads to itself.
        have hall : ∀ c ∈ component, a = c := fun c hcmem =>
          Classical.byContradiction fun hac => hsingle ⟨c, hcmem, hac⟩
        match component, nodup_component hc, hall, ha with
        | [x], _, hall, ha =>
          obtain rfl := hall x (by simp)
          exact .single ⟨ha, ha, List.contains_iff_mem.mp hloop⟩
        | x :: y :: rest, hnodup, hall, _ =>
          have hxy : x = y := (hall x (by simp)).symm.trans (hall y (by simp))
          exact absurd (List.nodup_cons.mp hnodup).1 (by simp [hxy])
    · exact hother ha hb hab

/-! ## Regions of a pass that copies nothing -/

/-- The regions that a pass comes to while every component has at most one entry. -/
inductive Nested (s : Splitting) : List StateId → Prop
  | all : Nested s (List.range s.size)
  | inner {region component : List StateId} {header : StateId} (h : Nested s region)
    (hc : component ∈ (s.regionGraph region).components region)
    (hheader : s.entries s.graph.transpose component = [header]) :
    Nested s (component.erase header)

/-- The component of a region in which a loop lies, if it meets the component. -/
theorem subset_component {M : Set StateId} (hM : (d.withStates s).IsLoop M)
    (hregion : ∀ a ∈ M, a ∈ region) (hc : component ∈ (s.regionGraph region).components region)
    (hmeet : ∃ a ∈ M, a ∈ component) : ∀ a ∈ M, a ∈ component := by
  obtain ⟨other, hother, hin, -⟩ := exists_component_of_isLoop hM hregion
  obtain ⟨-, -, hlinked⟩ := Graph.components_spec (s.regionGraph region) region
  obtain ⟨a, ha, hac⟩ := hmeet
  exact fun b hb => (hlinked component hc a hac b).mpr
    ((hlinked other hother a (hin a ha) b).mp (hin b hb))

/-- A loop that can be entered only at a state of the region lies in the region. -/
theorem Nested.subset (h : Nested s region) {M : Set StateId} (hM : (d.withStates s).IsLoop M)
    {header : StateId} (hheader : header ∈ M) (hregion : header ∈ region)
    (honly : ∀ i, (d.withStates s).EntersAt M i → i = header) : ∀ a ∈ M, a ∈ region := by
  induction h with
  | all => exact fun a ha => List.mem_range.mpr (lt_size_of_isLoop hM ha)
  | @inner region component lacking _ hc hlacking ih =>
    have hmem : header ∈ component := List.mem_of_mem_erase hregion
    have hsub := subset_component hM (ih ?_) hc ⟨header, hheader, hmem⟩
    · -- The loop would be entered at the header that the region lacks.
      have hentry : (d.withStates s).EntersAt {i | i ∈ component} lacking := by
        rw [← mem_entries_iff (lt_size_of_component hc), hlacking]
        exact List.mem_singleton_self _
      intro a ha
      refine (List.mem_erase_of_ne ?_).mpr (hsub a ha)
      rintro rfl
      have heq := honly a ⟨ha, hentry.2.imp_right (Or.imp_right fun ⟨p, hp, hedge⟩ =>
        ⟨p, fun hin => hp (hsub p hin), hedge⟩)⟩
      rw [heq] at hregion
      exact (List.Nodup.not_mem_erase (nodup_component hc)) hregion
    · obtain ⟨-, hin, -⟩ := Graph.components_spec (s.regionGraph region) region
      exact ((hin header).mp (List.mem_flatten_of_mem hc hmem)).1

/-- What a pass finds in a component that it does not copy. -/
def Tame (s : Splitting) (component : List StateId) : Prop :=
  s.isLoop component = true → s.entries s.graph.transpose component = [] ∨
    ∃ header, s.entries s.graph.transpose component = [header]

/-- In a reducible automaton no component has several entries. -/
theorem Nested.tame (hd : (d.withStates s).Reducible) (h : Nested s region)
    (hc : component ∈ (s.regionGraph region).components region) : s.Tame component := by
  intro hloop
  by_cases hne : component = []
  · exact .inl (by rw [hne]; rfl)
  · obtain ⟨M, hM, hsub, header, hheader, honly⟩ := hd _ (isLoop_of_component hc hloop hne)
    obtain ⟨-, hin, -⟩ := Graph.components_spec (s.regionGraph region) region
    have hregion := ((hin header).mp (List.mem_flatten_of_mem hc hheader)).1
    have heq := subset_component hM (h.subset hM (hsub hheader) hregion honly) hc
      ⟨header, hsub hheader, hheader⟩
    have hentries : ∀ i ∈ s.entries s.graph.transpose component, i = header := by
      intro i hi
      obtain ⟨hmem, hentry⟩ := (mem_entries_iff (d := d) (lt_size_of_component hc)).mp hi
      exact honly i ⟨hsub hmem, hentry.imp_right (Or.imp_right fun ⟨p, hp, hedge⟩ =>
        ⟨p, fun hpM => hp (heq p hpM), hedge⟩)⟩
    have hnodup : (s.entries s.graph.transpose component).Nodup := (nodup_component hc).filter _
    match hlist : s.entries s.graph.transpose component with
    | [] => exact .inl rfl
    | [i] => exact .inr ⟨i, rfl⟩
    | i :: j :: rest =>
      rw [hlist] at hentries hnodup
      have hij : i = j := (hentries i (by simp)).trans (hentries j (by simp)).symm
      exact absurd (List.nodup_cons.mp hnodup).1 (by simp [hij])

/-! ## The work of a pass that copies nothing -/

/-- The pass that has taken the work `total` and copied nothing. -/
def idlePass (s : Splitting) (total : Nat) (regions : List (List StateId)) : Pass where
  current := { s with work := total }
  regions

/-- Treating tame components adds the same regions, whatever the limit and the work before. -/
theorem exists_treatAll (h : Nested s region) {components : List (List StateId)}
    (hc : ∀ component ∈ components, component ∈ (s.regionGraph region).components region)
    (htame : ∀ component ∈ components, s.Tame component) :
    ∃ added : List (List StateId), (∀ r ∈ added, Nested s r) ∧ ∀ maxStates total regions,
      components.foldlM (Pass.treat maxStates s.graph.transpose) (s.idlePass total regions) =
        .ok (s.idlePass total (added ++ regions)) := by
  induction components with
  | nil => exact ⟨[], nofun, fun _ _ _ => rfl⟩
  | cons component components ih =>
    obtain ⟨hfirst, hrest⟩ := List.forall_mem_cons.mp hc
    obtain ⟨htameFirst, htameRest⟩ := List.forall_mem_cons.mp htame
    obtain ⟨added, hadded, hfold⟩ := ih hrest htameRest
    obtain ⟨first, hnested, htreat⟩ : ∃ first : List (List StateId), (∀ r ∈ first, Nested s r) ∧
        ∀ maxStates total regions, Pass.treat maxStates s.graph.transpose
          (s.idlePass total regions) component = .ok (s.idlePass total (first ++ regions)) := by
      cases hloop : s.isLoop component with
      | false =>
        refine ⟨[], nofun, fun maxStates total regions => ?_⟩
        have hloop' : (s.idlePass total regions).current.isLoop component = false := hloop
        simp [Pass.treat, hloop', pure, Except.pure]
      | true =>
        rcases htameFirst hloop with hnone | ⟨header, hheader⟩
        · refine ⟨[], nofun, fun maxStates total regions => ?_⟩
          have hloop' : (s.idlePass total regions).current.isLoop component = true := hloop
          have hentries : (s.idlePass total regions).current.entries s.graph.transpose component =
            [] := hnone
          simp [Pass.treat, hloop', hentries, pure, Except.pure]
        · refine ⟨[component.erase header], List.forall_mem_singleton.mpr (.inner h hfirst hheader),
            fun maxStates total regions => ?_⟩
          have hloop' : (s.idlePass total regions).current.isLoop component = true := hloop
          have hentries : (s.idlePass total regions).current.entries s.graph.transpose component =
            [header] := hheader
          simp [Pass.treat, hloop', hentries, pure, Except.pure]
          rfl
    refine ⟨added ++ first, fun r hr => ?_, fun maxStates total regions => ?_⟩
    · exact (List.mem_append.mp hr).elim (hadded r) (hnested r)
    · rw [List.foldlM_cons, htreat]
      exact (hfold maxStates total _).trans (by rw [List.append_assoc])

/-- The work of finding the components of a region. -/
def regionWork (s : Splitting) (region : List StateId) : Nat :=
  region.length + (s.regionGraph region).edgeCount

theorem regionComponents_idlePass {maxStates total : Nat} {regions : List (List StateId)} :
    (s.idlePass total regions).current.regionComponents maxStates region =
      if total + s.regionWork region ≤ workLimit maxStates then
        .ok ((s.regionGraph region).components region, { s with work := total + s.regionWork region })
      else .error tooLarge := by
  have hcharge : (s.idlePass total regions).current.charge maxStates (s.regionWork region) =
      if total + s.regionWork region ≤ workLimit maxStates then
        .ok { s with work := total + s.regionWork region } else .error tooLarge := rfl
  change ((s.idlePass total regions).current.charge maxStates (s.regionWork region) >>= _) = _
  rw [hcharge]
  split <;> rfl

/-- Searching a reducible automaton takes the same work whatever the limit is, and fails exactly if
that is more than the limit. -/
theorem exists_search (hd : (d.withStates s).Reducible) (fuel : Nat)
    (regions : List (List StateId)) (hregions : ∀ r ∈ regions, Nested s r) :
    ∃ more left, ∀ maxStates total, total ≤ workLimit maxStates →
      Pass.search maxStates s.graph.transpose fuel (s.idlePass total regions) =
        if total + more ≤ workLimit maxStates then .ok (s.idlePass (total + more) left)
        else .error tooLarge := by
  induction fuel generalizing regions with
  | zero =>
    refine ⟨0, regions, fun maxStates total htotal => ?_⟩
    rw [if_pos (show total + 0 ≤ _ from htotal)]
    rfl
  | succ fuel ih =>
    cases regions with
    | nil =>
      refine ⟨0, [], fun maxStates total htotal => ?_⟩
      rw [if_pos (show total + 0 ≤ _ from htotal)]
      rfl
    | cons region regions =>
      obtain ⟨hregion, hrest⟩ := List.forall_mem_cons.mp hregions
      obtain ⟨added, hadded, htreat⟩ := exists_treatAll hregion (fun _ => id)
        fun component hc => hregion.tame hd hc
      obtain ⟨more, left, hsearch⟩ := ih (added ++ regions) fun r hr =>
        (List.mem_append.mp hr).elim (hadded r) (hrest r)
      refine ⟨s.regionWork region + more, left, fun maxStates total htotal => ?_⟩
      have hstep : Pass.search maxStates s.graph.transpose (fuel + 1)
          (s.idlePass total (region :: regions)) =
            (s.idlePass total (region :: regions)).current.regionComponents maxStates region >>=
              fun r => r.1.foldlM (Pass.treat maxStates s.graph.transpose)
                { current := r.2, regions } >>= Pass.search maxStates s.graph.transpose fuel := rfl
      rw [hstep, regionComponents_idlePass]
      by_cases hle : total + s.regionWork region ≤ workLimit maxStates
      · rw [if_pos hle, ← Nat.add_assoc, ← hsearch maxStates _ hle]
        exact congrArg (· >>= _) (htreat maxStates (total + s.regionWork region) regions)
      · rw [if_neg hle, if_neg (by omega)]
        rfl

/-- A reducible automaton stays as it is, or takes too much work for the limit. -/
theorem exists_run (hd : (d.withStates s).Reducible) (hwork : s.work = 0) :
    ∃ total, ∀ maxStates fuel, s.run maxStates (fuel + 1) =
      if total ≤ workLimit maxStates then .ok { s with work := total } else .error tooLarge := by
  obtain ⟨more, left, hsearch⟩ := exists_search hd (s.size + 1) [List.range s.size]
    (List.forall_mem_singleton.mpr .all)
  refine ⟨s.fullWork + more, fun maxStates fuel => ?_⟩
  have hcharge : s.charge maxStates s.fullWork =
      if s.fullWork ≤ workLimit maxStates then .ok { s with work := s.fullWork }
      else .error tooLarge := by
    rw [charge, hwork, Nat.zero_add]
  rw [run, pass, hcharge]
  by_cases hfull : s.fullWork ≤ workLimit maxStates
  · have hpass := hsearch maxStates s.fullWork hfull
    rw [if_pos hfull]
    change (Pass.search maxStates s.graph.transpose (s.size + 1)
      (s.idlePass s.fullWork [List.range s.size]) >>= _) >>= _ = _
    rw [hpass]
    split <;> rfl
  · rw [if_neg hfull, if_neg (by omega)]
    rfl

/-- Where splitting begins. -/
def ofDfa (d : Dfa) : Splitting :=
  { states := d.states, rootStart := d.rootStart, rootMid := d.rootMid }

/-- A pass that copies nothing has seen that the automaton is reducible. -/
theorem reducible_of_pass {maxStates : Nat} {s' : Splitting}
    (hs : s.pass maxStates = .ok (false, s')) : (d.withStates s').Reducible := by
  intro L hL
  obtain ⟨region, component, h⟩ := exists_headed_of_pass (d := d) hs hL
  obtain ⟨a, ha⟩ := hL.nonempty
  have hentries := fun i => mem_entries_iff (d := d) (i := i) (lt_size_of_component h.mem)
  refine ⟨_, isLoop_of_component h.mem h.isLoop (List.ne_nil_of_mem (h.subset a ha)), h.subset, ?_⟩
  rcases h.entries with hnone | ⟨header, hheader, honly⟩
  · refine ⟨a, ha, fun i hi => ?_⟩
    have hmem := (hentries i).mpr hi
    rw [hnone] at hmem
    cases hmem
  · refine ⟨header, hheader, fun i hi => ?_⟩
    have hmem := (hentries i).mpr hi
    rwa [honly, List.mem_singleton] at hmem

end Splitting

/-- Splitting makes an automaton reducible. -/
theorem reducible_splitLoops {d d' : Dfa} {maxStates : Nat} (hd : d.splitLoops maxStates = .ok d') :
    d'.Reducible := by
  obtain ⟨s, hs, hd⟩ := bind_eq_ok.mp hd
  cases hd
  obtain ⟨s1, hpass⟩ := Splitting.exists_pass_of_run hs
  exact Splitting.reducible_of_pass (d := d) hpass

section Budgets

open Splitting

/-- Splitting an automaton ends, with a result or since a limit is exceeded; until then, it never holds
more states than it may, or than it had at first. The result has taken no more work than it may. A
reducible automaton takes a fixed amount of work: it stays as it is if the limit allows for that. -/
theorem splitLoops_within_budgets (d : Dfa) (hd : 0 < d.size) :
    (∀ maxStates,
      let result := (ofDfa d).run maxStates (workLimit maxStates + 2)
      Acc (fun b a => Phase.Follows maxStates a b) (.ready (ofDfa d)) ∧
        Phase.Leads maxStates (.ready (ofDfa d)) (.ended result) ∧
        (∀ phase, Phase.Leads maxStates (.ready (ofDfa d)) phase →
          phase.Fits maxStates (max maxStates d.size) 0) ∧
        (∀ s, result = .ok s → s.work ≤ 256 * maxStates ∧
          d.splitLoops maxStates = .ok (d.withStates s) ∧
          (d.withStates s).size ≤ max maxStates d.size) ∧
        ∀ e, result = .error e → e = Stage.nodeSplitter.exceeded .splitDfaSize ∧
          d.splitLoops maxStates = .error e) ∧
    (d.Reducible → ∃ total, ∀ maxStates,
      (total ≤ 256 * maxStates →
        (ofDfa d).run maxStates (workLimit maxStates + 2) = .ok { ofDfa d with work := total } ∧
          d.splitLoops maxStates = .ok d) ∧
      (256 * maxStates < total →
        d.splitLoops maxStates = .error (Stage.nodeSplitter.exceeded .splitDfaSize))) := by
  have hsplit : ∀ maxStates, d.splitLoops maxStates =
      ((ofDfa d).run maxStates (workLimit maxStates + 2)).map d.withStates := by
    intro maxStates
    show ((ofDfa d).run maxStates (workLimit maxStates + 2) >>= _) = _
    cases (ofDfa d).run maxStates (workLimit maxStates + 2) <;> rfl
  refine ⟨fun maxStates => ?_, fun hreducible => ?_⟩
  · have hleads := leads_run (s := ofDfa d) (workLimit maxStates + 2) hd (Nat.zero_le _)
      (show workLimit maxStates < workLimit maxStates + 2 + 0 by omega)
    have hfits : Phase.Fits maxStates (max maxStates d.size) 0 (.ready (ofDfa d)) :=
      ⟨hd, Nat.le_max_right .., Nat.zero_le _, Nat.zero_le _⟩
    have hend := hfits.leads (Nat.le_max_left ..) hleads
    refine ⟨Phase.acc_of_leads hleads, hleads,
      fun phase hphase => hfits.leads (Nat.le_max_left ..) hphase, fun s hs => ?_, fun e he => ?_⟩
    · rw [hs] at hend
      exact ⟨hend.work, by rw [hsplit, hs]; rfl, hend.size⟩
    · rw [he] at hend
      exact ⟨hend, by rw [hsplit, he]; rfl⟩
  · obtain ⟨total, htotal⟩ := exists_run (d := d) (s := ofDfa d) hreducible rfl
    refine ⟨total, fun maxStates => ⟨fun hle => ?_, fun hlt => ?_⟩⟩
    · have hrun := (htotal maxStates (workLimit maxStates + 1)).trans (if_pos hle)
      exact ⟨hrun, by rw [hsplit, hrun]; rfl⟩
    · have hrun := (htotal maxStates (workLimit maxStates + 1)).trans (if_neg (Nat.not_le_of_lt hlt))
      rw [hsplit, hrun]
      rfl

/-- The loop with two entries is copied, which takes six states, and the result needs no splitting. -/
theorem splitLoops_within_budgets_twoEntries : ∃ d' total,
    twoEntries.splitLoops 10 = .ok d' ∧ d'.size = 6 ∧ d'.size ≤ max 10 twoEntries.size ∧
      Acc (fun b a => Phase.Follows 10 a b) (.ready (ofDfa twoEntries)) ∧
      twoEntries.splitLoops 4 = .error (Stage.nodeSplitter.exceeded .splitDfaSize) ∧
      d'.Reducible ∧ ∀ maxStates, total ≤ 256 * maxStates → d'.splitLoops maxStates = .ok d' := by
  obtain ⟨s, hs⟩ := exists_ok (x := (ofDfa twoEntries).run 10 (workLimit 10 + 2)) (by decide +kernel)
  obtain ⟨hacc, -, -, hok, -⟩ := (splitLoops_within_budgets twoEntries (by decide)).1 10
  obtain ⟨-, hsplit, hsize⟩ := hok s hs
  have hsix : (twoEntries.withStates s).size = 6 :=
    of_toOption (P := fun s => s.size = 6) (by decide +kernel) hs
  obtain ⟨e, he⟩ : ∃ e, (ofDfa twoEntries).run 4 (workLimit 4 + 2) = .error e := by
    have hfails : ((ofDfa twoEntries).run 4 (workLimit 4 + 2)).isOk = false := by decide +kernel
    cases hrun : (ofDfa twoEntries).run 4 (workLimit 4 + 2) with
    | ok s => simp [hrun, Except.isOk, Except.toBool] at hfails
    | error e => exact ⟨e, rfl⟩
  obtain ⟨rfl, hfails⟩ := ((splitLoops_within_budgets twoEntries (by decide)).1 4).2.2.2.2 e he
  have hreducible := reducible_splitLoops hsplit
  obtain ⟨total, htotal⟩ := (splitLoops_within_budgets (twoEntries.withStates s)
    (by rw [hsix]; decide)).2 hreducible
  exact ⟨_, total, hsplit, hsix, hsize, hacc, hfails, hreducible,
    fun maxStates h => ((htotal maxStates).1 h).2⟩

end Budgets

end PatternAutomata.Dfa
