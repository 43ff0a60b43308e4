import Mathlib.Data.List.Chain
import Mathlib.Data.List.Perm.Subperm
import Mathlib.Data.Set.Basic
import PatternAutomata.Proofs.Dfa.Splitting

/-!
# Every loop has a single entry

The last pass has copied nothing, so it has seen every region as it is in the end. A loop inside of
a region lies in one of its components. Who enters the component does so by its only entry. If that
belongs to the loop, it is the entry of the loop; and if not, the loop lies in the component without
it, which is a region that the pass has searched as well.
-/

namespace PatternAutomata.Dfa

/-- Two or more states that reach each other without leaving `L`, or one that leads to itself. -/
structure IsLoop (d : Dfa) (L : Set StateId) : Prop where
  nonempty : L.Nonempty
  reaches : ∀ a ∈ L, ∀ b ∈ L,
    Relation.TransGen (fun i j => i ∈ L ∧ j ∈ L ∧ j ∈ (d.state i).successors) a b

/-- A path from a root. -/
structure IsPath (d : Dfa) (path : List StateId) : Prop where
  head : path.head? = some d.rootStart ∨ path.head? = some d.rootMid
  chain : path.IsChain fun i j => j ∈ (d.state i).successors

/-- All paths from the roots that visit `L` visit the same state of `L` first. -/
def HasEntry (d : Dfa) (L : Set StateId) : Prop :=
  ∃ entry ∈ L, ∀ before first after, d.IsPath (before ++ first :: after) → first ∈ L →
    (∀ i ∈ before, i ∉ L) → first = entry

namespace Splitting

variable {d : Dfa} {s : Splitting} {maxStates : Nat} {L : Set StateId}

/-! ## Loops lie in components -/

theorem exists_edge_of_isLoop (hL : (d.withStates s).IsLoop L) {a : StateId} (ha : a ∈ L) :
    ∃ b ∈ L, b ∈ s.successors a := by
  rcases Relation.TransGen.head'_iff.mp (hL.reaches a ha a ha) with ⟨b, ⟨-, hb, hedge⟩, -⟩
  exact ⟨b, hb, hedge⟩

theorem lt_size_of_isLoop (hL : (d.withStates s).IsLoop L) {a : StateId} (ha : a ∈ L) :
    a < s.size := by
  obtain ⟨b, -, hedge⟩ := exists_edge_of_isLoop hL ha
  exact lt_size_of_mem_successors hedge

theorem exists_component_of_isLoop (hL : (d.withStates s).IsLoop L) {region : List StateId}
    (hregion : ∀ a ∈ L, a ∈ region) : ∃ component ∈ (s.regionGraph region).components region,
      (∀ a ∈ L, a ∈ component) ∧ s.isLoop component = true := by
  obtain ⟨a, ha⟩ := hL.nonempty
  obtain ⟨-, hmem, hlinked⟩ := Graph.components_spec (s.regionGraph region) region
  simp only [size_regionGraph] at hmem hlinked
  have hin : ∀ i ∈ L, i ∈ region ∧ i < s.size := fun i hi =>
    ⟨hregion i hi, lt_size_of_isLoop hL hi⟩
  obtain ⟨component, hc, hac⟩ := List.mem_flatten.mp ((hmem a).mpr (hin a ha))
  have hjoins : ∀ i ∈ L, ∀ j ∈ L,
      Graph.Joins (s.regionGraph region) (fun i => i ∈ region ∧ i < s.size) i j := by
    intro i hi j hj
    refine ⟨hin i hi, Relation.ReflTransGen.mono (fun k l hkl => ?_) _ _
      (hL.reaches i hi j hj).to_reflTransGen⟩
    obtain ⟨hk, hl, hedge⟩ := hkl
    exact ⟨mem_next_regionGraph.mpr ⟨hedge, (hin k hk).1, hin l hl⟩, hin l hl⟩
  have hsub : ∀ b ∈ L, b ∈ component := fun b hb =>
    (hlinked component hc a hac b).mpr ⟨hjoins a ha b hb, hjoins b hb a ha⟩
  refine ⟨component, hc, hsub, ?_⟩
  obtain ⟨b, hb, hedge⟩ := exists_edge_of_isLoop hL ha
  match component, hsub a ha, hsub b hb with
  | [_], ha, hb =>
    rw [List.mem_singleton] at ha hb
    rw [ha, hb] at hedge
    exact List.contains_iff_mem.mpr hedge
  | _ :: _ :: _, _, _ => rfl

/-! ## Entries -/

theorem mem_entries {loop : List StateId} {i : StateId} (hi : i ∈ loop) (hlt : i < s.size)
    (h : i = s.rootStart ∨ i = s.rootMid ∨ ∃ p, i ∈ s.successors p ∧ p ∉ loop) :
    i ∈ s.entries s.graph.transpose loop := by
  refine List.mem_filter.mpr ⟨hi, ?_⟩
  rw [Bool.or_eq_true]
  rcases h with h | h | ⟨p, hp, hout⟩
  · exact .inl (by simp [isRoot, h])
  · exact .inl (by simp [isRoot, h])
  · refine .inr (List.any_eq_true.mpr ⟨p, Graph.mem_next_transpose.mpr ⟨?_, ?_⟩, ?_⟩)
    · rwa [next_graph]
    · rwa [size_graph]
    · rw [Bool.not_eq_true', ← Bool.not_eq_true, flags_iff]
      exact fun h => hout h.1

/-- Who comes to a component has passed one of its entries. -/
theorem exists_entry {loop : List StateId} (hlt : ∀ i ∈ loop, i < s.size)
    (before : List StateId) {a : StateId} (ha : a ∈ loop)
    (hpath : (d.withStates s).IsPath (before ++ [a])) :
    ∃ i ∈ before ++ [a], i ∈ s.entries s.graph.transpose loop := by
  induction before using List.reverseRecOn generalizing a with
  | nil =>
    refine ⟨a, by simp, mem_entries ha (hlt a ha) ?_⟩
    rcases hpath.head with h | h
    · exact .inl (Option.some_inj.mp h)
    · exact .inr (.inl (Option.some_inj.mp h))
  | append_singleton before b ih =>
    obtain ⟨hbefore, -, hedge⟩ := List.isChain_append.mp hpath.chain
    by_cases hb : b ∈ loop
    · obtain ⟨i, hi, hentry⟩ := ih hb ⟨by simpa using hpath.head, hbefore⟩
      exact ⟨i, List.mem_append_left _ hi, hentry⟩
    · exact ⟨a, by simp, mem_entries ha (hlt a ha)
        (.inr (.inr ⟨b, hedge b (by simp) a (by simp), hb⟩))⟩

/-- What is known of a component when nothing is copied. -/
def Treated (s : Splitting) (back : Graph) (regions : List (List StateId))
    (component : List StateId) : Prop :=
  s.isLoop component = true → s.entries back component = [] ∨
    ∃ entry, s.entries back component = [entry] ∧ component.erase entry ∈ regions

/-- The loop lies in a loop that is a component of a region, and that has either no entry or only
one, which belongs to the loop. -/
structure Headed (s : Splitting) (L : Set StateId) (region component : List StateId) : Prop where
  mem : component ∈ (s.regionGraph region).components region
  isLoop : s.isLoop component = true
  subset : ∀ a ∈ L, a ∈ component
  entries : s.entries s.graph.transpose component = [] ∨
    ∃ entry ∈ L, s.entries s.graph.transpose component = [entry]

/-- A loop with a header has an entry. -/
theorem Headed.hasEntry {region component : List StateId} (h : s.Headed L region component)
    (hne : L.Nonempty) : (d.withStates s).HasEntry L := by
  obtain ⟨-, hmem, -⟩ := Graph.components_spec (s.regionGraph region) region
  rw [size_regionGraph] at hmem
  have hlt : ∀ i ∈ component, i < s.size := fun i hi =>
    ((hmem i).mp (List.mem_flatten_of_mem h.mem hi)).2
  have hpassed : ∀ before first after, (d.withStates s).IsPath (before ++ first :: after) →
      first ∈ L → ∃ i ∈ before ++ [first], i ∈ s.entries s.graph.transpose component := by
    intro before first after hpath hfirst
    refine exists_entry (d := d) hlt before (h.subset first hfirst) ⟨?_, ?_⟩
    · rcases before with _ | ⟨b, before⟩ <;> exact hpath.head
    · have hchain := hpath.chain
      rw [List.append_cons] at hchain
      exact (List.isChain_append.mp hchain).1
  rcases h.entries with hnone | ⟨entry, hentry, hentries⟩
  · obtain ⟨a, ha⟩ := hne
    refine ⟨a, ha, fun before first after hpath hfirst _ => ?_⟩
    obtain ⟨i, -, hi⟩ := hpassed before first after hpath hfirst
    rw [hnone] at hi
    cases hi
  · refine ⟨entry, hentry, fun before first after hpath hfirst hbefore => ?_⟩
    obtain ⟨i, hi, hmem⟩ := hpassed before first after hpath hfirst
    rw [hentries, List.mem_singleton] at hmem
    subst hmem
    rcases List.mem_append.mp hi with hi | hi
    · exact absurd hentry (hbefore i hi)
    · exact (List.mem_singleton.mp hi).symm

/-- A loop in a component has a header if the loops in the regions have. -/
theorem exists_headed_of_treated {regions : List (List StateId)} {region component : List StateId}
    (h : s.Treated s.graph.transpose regions component)
    (hc : component ∈ (s.regionGraph region).components region)
    (hloop : s.isLoop component = true) (hL : ∀ a ∈ L, a ∈ component)
    (hregions : ∀ region ∈ regions, (∀ a ∈ L, a ∈ region) →
      ∃ region component, s.Headed L region component) :
    ∃ region component, s.Headed L region component := by
  rcases h hloop with hnone | ⟨entry, hentries, hregion⟩
  · exact ⟨region, component, hc, hloop, hL, .inl hnone⟩
  · by_cases hentry : entry ∈ L
    · exact ⟨region, component, hc, hloop, hL, .inr ⟨entry, hentry, hentries⟩⟩
    · refine hregions _ hregion fun a ha => (List.mem_erase_of_ne ?_).mpr (hL a ha)
      rintro rfl
      exact hentry ha

/-! ## A pass that copies nothing -/

/-- How many searches regions may take. Each takes one, and its loops lose a state each. -/
def weight (regions : List (List StateId)) : Nat := (regions.map fun r => r.length + 1).sum

section Unchanged

variable {back : Graph} {p p' : Pass}

theorem weight_cons (region : List StateId) (regions : List (List StateId)) :
    weight (region :: regions) = region.length + 1 + weight regions := by
  rw [weight, List.map_cons, List.sum_cons, weight]

/-- A region that is added weighs no more than the component from which it comes. -/
theorem weight_treat {component : List StateId} (hp : p.treat maxStates back component = .ok p') :
    weight p'.regions ≤ component.length + weight p.regions := by
  unfold Pass.treat at hp
  split at hp
  · split at hp
    · cases hp
      exact Nat.le_add_left ..
    · rename_i header hentries
      cases hp
      have hmem : header ∈ p.current.entries back component := by simp [hentries]
      have hheader := (List.mem_filter.mp hmem).1
      have hpos := List.length_pos_of_mem hheader
      rw [weight_cons, List.length_erase_of_mem hheader]
      omega
    · obtain ⟨copied, -, hp⟩ := bind_eq_ok.mp hp
      cases hp
      exact Nat.le_add_left ..
  · cases hp
    exact Nat.le_add_left ..

theorem weight_treatAll {components : List (List StateId)}
    (hp : components.foldlM (Pass.treat maxStates back) p = .ok p') :
    weight p'.regions ≤ components.flatten.length + weight p.regions := by
  induction components generalizing p with
  | nil =>
    cases hp
    exact Nat.le_add_left ..
  | cons component components ih =>
    rw [List.foldlM_cons] at hp
    obtain ⟨p1, h1, hp⟩ := bind_eq_ok.mp hp
    have hrest := ih hp
    have hfirst := weight_treat h1
    rw [List.flatten_cons, List.length_append]
    omega

/-- The components of a region are disjoint parts of it. -/
theorem length_components (s : Splitting) (region : List StateId) :
    ((s.regionGraph region).components region).flatten.length ≤ region.length := by
  obtain ⟨hnodup, hmem, -⟩ := Graph.components_spec (s.regionGraph region) region
  exact (List.subperm_of_subset hnodup fun v hv => ((hmem v).mp hv).1).length_le

theorem treat_unchanged {component : List StateId}
    (hp : p.treat maxStates back component = .ok p') (hunchanged : p'.changed = false) :
    p'.current = p.current ∧ p.changed = false ∧ (∀ region ∈ p.regions, region ∈ p'.regions) ∧
      p.current.Treated back p'.regions component := by
  unfold Pass.treat at hp
  split at hp
  · split at hp
    · rename_i hentries
      cases hp
      exact ⟨rfl, hunchanged, fun _ => id, fun _ => .inl hentries⟩
    · rename_i entry hentries
      cases hp
      exact ⟨rfl, hunchanged, fun _ => List.mem_cons_of_mem _,
        fun _ => .inr ⟨entry, hentries, List.mem_cons_self ..⟩⟩
    · obtain ⟨copied, -, hp⟩ := bind_eq_ok.mp hp
      cases hp
      cases hunchanged
  · rename_i hloop
    cases hp
    exact ⟨rfl, hunchanged, fun _ => id, fun h => absurd h hloop⟩

theorem treatAll_unchanged {components : List (List StateId)}
    (hp : components.foldlM (Pass.treat maxStates back) p = .ok p')
    (hunchanged : p'.changed = false) :
    p'.current = p.current ∧ p.changed = false ∧ (∀ region ∈ p.regions, region ∈ p'.regions) ∧
      ∀ component ∈ components, p.current.Treated back p'.regions component := by
  induction components generalizing p with
  | nil =>
    cases hp
    exact ⟨rfl, hunchanged, fun _ => id, nofun⟩
  | cons component components ih =>
    rw [List.foldlM_cons] at hp
    obtain ⟨p1, h1, hp⟩ := bind_eq_ok.mp hp
    obtain ⟨hcurrent, hunchanged1, hkept, htreated⟩ := ih hp
    obtain ⟨hcurrent1, hunchanged0, hkept1, htreated1⟩ := treat_unchanged h1 hunchanged1
    rw [hcurrent1] at hcurrent htreated
    refine ⟨hcurrent, hunchanged0, fun region h => hkept _ (hkept1 _ h), fun c hc => ?_⟩
    rcases List.mem_cons.mp hc with rfl | hc
    · exact fun hloop => (htreated1 hloop).imp_right fun ⟨entry, h, hin⟩ =>
        ⟨entry, h, hkept _ hin⟩
    · exact htreated c hc

theorem current_of_search {fuel : Nat} (hp : p.search maxStates back fuel = .ok p')
    (hunchanged : p'.changed = false) :
    p.changed = false ∧ ∃ total, p'.current = { p.current with work := total } := by
  induction fuel generalizing p with
  | zero =>
    cases hp
    exact ⟨hunchanged, _, rfl⟩
  | succ fuel ih =>
    obtain ⟨-, rfl⟩ | ⟨region, regions, total, p1, -, hfold, hp⟩ := search_eq_ok hp
    · exact ⟨hunchanged, _, rfl⟩
    · obtain ⟨hunchanged1, total', hcurrent⟩ := ih hp
      obtain ⟨hcurrent1, hunchanged0, -⟩ := treatAll_unchanged hfold hunchanged1
      exact ⟨hunchanged0, total', by rw [hcurrent, hcurrent1]⟩

/-- With enough fuel all regions are searched, so the loops in them have headers. -/
theorem exists_headed_of_search {fuel total : Nat} (hcurrent : p.current = { s with work := total })
    (hp : p.search maxStates s.graph.transpose fuel = .ok p') (hunchanged : p'.changed = false)
    (hfuel : weight p.regions ≤ fuel) (hL : (d.withStates s).IsLoop L) :
    ∀ region ∈ p.regions, (∀ a ∈ L, a ∈ region) → ∃ region component, s.Headed L region component := by
  induction fuel generalizing p total with
  | zero =>
    intro region hregion
    cases hregions : p.regions with
    | nil =>
      rw [hregions] at hregion
      cases hregion
    | cons r rs =>
      rw [hregions, weight_cons] at hfuel
      omega
  | succ fuel ih =>
    obtain ⟨hnone, -⟩ | ⟨first, regions, total', p1, hregions, hfold, hp⟩ := search_eq_ok hp
    · intro region hregion
      rw [hnone] at hregion
      cases hregion
    · have hcomponents : (p.current.regionGraph first).components first =
          (s.regionGraph first).components first := by rw [hcurrent]; rfl
      rw [hcomponents] at hfold
      obtain ⟨hunchanged1, -⟩ := current_of_search hp hunchanged
      obtain ⟨hcurrent1, -, hkept, htreated⟩ := treatAll_unchanged hfold hunchanged1
      rw [hcurrent] at hcurrent1 htreated
      have hlength := length_components s first
      have hweight := weight_treatAll hfold
      rw [hregions, weight_cons] at hfuel
      have hrest := ih hcurrent1 hp (by
        simp only at hweight
        omega)
      intro region hregion hsub
      rw [hregions] at hregion
      rcases List.mem_cons.mp hregion with rfl | hregion
      · obtain ⟨component, hc, hin, hloop⟩ := exists_component_of_isLoop hL hsub
        exact exists_headed_of_treated (htreated component hc) hc hloop hin hrest
      · exact hrest region (hkept region hregion) hsub

end Unchanged

theorem exists_headed_of_pass {s' : Splitting} (hs : s.pass maxStates = .ok (false, s'))
    (hL : (d.withStates s').IsLoop L) : ∃ region component, s'.Headed L region component := by
  obtain ⟨total, p, hp, hunchanged, rfl⟩ := pass_eq_ok hs
  have hunchanged := hunchanged.symm
  obtain ⟨-, total', hcurrent⟩ := current_of_search hp hunchanged
  rw [hcurrent] at hL ⊢
  obtain ⟨region, component, h⟩ := exists_headed_of_search (d := d)
    (show _ = { s with work := total } from rfl) hp hunchanged (by simp [weight, size]) hL
    (List.range s.size) (by simp [size]) fun a ha => List.mem_range.mpr (lt_size_of_isLoop hL ha)
  exact ⟨region, component, h.mem, h.isLoop, h.subset, h.entries⟩

/-- Splitting ends with a pass that copies nothing. -/
theorem exists_pass_of_run {s' : Splitting} {fuel : Nat} (hs : s.run maxStates fuel = .ok s') :
    ∃ s1 : Splitting, s1.pass maxStates = .ok (false, s') := by
  induction fuel generalizing s with
  | zero => cases hs
  | succ fuel ih =>
    obtain hpass | ⟨s1, s2, -, -, hs⟩ := run_eq_ok hs
    · exact ⟨s, hpass⟩
    · exact ih hs

end Splitting

/-- Splitting the loops of an automaton leaves every loop with a single entry. -/
theorem hasEntry_splitLoops {d d' : Dfa} {maxStates : Nat} (hd : d.splitLoops maxStates = .ok d')
    {L : Set StateId} (hL : d'.IsLoop L) : d'.HasEntry L := by
  obtain ⟨s, hs, hd⟩ := bind_eq_ok.mp hd
  cases hd
  obtain ⟨s1, hpass⟩ := Splitting.exists_pass_of_run hs
  obtain ⟨region, component, h⟩ := Splitting.exists_headed_of_pass (d := d) hpass hL
  exact h.hasEntry hL.nonempty

/-- From state 1 the loop of states 2 and 3 is entered at both. -/
def twoEntries : Dfa where
  states := #[{},
    { transitions := [{ range := .single 97, target := 2 }, { range := .single 98, target := 3 }] },
    { transitions := [{ range := .single 99, target := 3 }] },
    { transitions := [{ range := .single 100, target := 2 }] }]
  rootStart := 1
  rootMid := 1
  leadLength := 0
  boundaries := #[.empty]
  results := none
  groups := 1

theorem isLoop_pair {d : Dfa} {a b : StateId} (hab : b ∈ (d.state a).successors)
    (hba : a ∈ (d.state b).successors) : d.IsLoop {a, b} where
  nonempty := ⟨a, .inl rfl⟩
  reaches := by
    have h1 : Relation.TransGen (fun i j => i ∈ ({a, b} : Set StateId) ∧ j ∈ ({a, b} : Set StateId) ∧
        j ∈ (d.state i).successors) a b := .single ⟨.inl rfl, .inr rfl, hab⟩
    have h2 : Relation.TransGen (fun i j => i ∈ ({a, b} : Set StateId) ∧ j ∈ ({a, b} : Set StateId) ∧
        j ∈ (d.state i).successors) b a := .single ⟨.inr rfl, .inl rfl, hba⟩
    rintro _ (rfl | rfl) _ (rfl | rfl)
    · exact h1.trans h2
    · exact h1
    · exact h2
    · exact h2.trans h1

theorem hasEntry_splitLoops_twoEntries : ∃ d', twoEntries.splitLoops 10 = .ok d' ∧
    d'.IsLoop {2, 3} ∧ d'.HasEntry {2, 3} ∧ d'.IsLoop {4, 5} ∧ d'.HasEntry {4, 5} := by
  obtain ⟨d', hd'⟩ := exists_ok (x := twoEntries.splitLoops 10) (by decide +kernel)
  obtain ⟨h23, h32, h45, h54⟩ := of_toOption (P := fun d' => 3 ∈ (d'.state 2).successors ∧
    2 ∈ (d'.state 3).successors ∧ 5 ∈ (d'.state 4).successors ∧ 4 ∈ (d'.state 5).successors)
    (by decide +kernel) hd'
  have h1 := isLoop_pair h23 h32
  have h2 := isLoop_pair h45 h54
  exact ⟨d', hd', h1, hasEntry_splitLoops hd' h1, h2, hasEntry_splitLoops hd' h2⟩

end PatternAutomata.Dfa
