import PatternAutomata.Proofs.Dfa.Regions
import PatternAutomata.Proofs.Graph.OneSearch

/-!
# The components of a region

Two states of a region are in one component just if each leads to the other without leaving the region.
That one of them leads to the other in another way does not count.
-/

namespace PatternAutomata.Dfa.Splitting

/-- The state leads to the other one without leaving the region. -/
def LeadsWithin (s : Splitting) (region : List StateId) : StateId → StateId → Prop :=
  Relation.ReflTransGen fun v w => v ∈ region ∧ w ∈ s.successors v ∧ w ∈ region

variable {s : Splitting} {region : List StateId} {v w : StateId}

theorem leads_regionGraph (hregion : ∀ v ∈ region, v < s.size) :
    (s.regionGraph region).Leads v w ↔ s.LeadsWithin region v w := by
  have hedge : ∀ a b, b ∈ (s.regionGraph region).next a ↔
      a ∈ region ∧ b ∈ s.successors a ∧ b ∈ region := fun a b => by
    rw [mem_next_regionGraph]
    exact ⟨fun ⟨hb, ha, hin, _⟩ => ⟨ha, hb, hin⟩, fun ⟨ha, hb, hin⟩ => ⟨hb, ha, hin, hregion b hin⟩⟩
  rw [Graph.Leads, LeadsWithin]
  simp only [hedge]

/-- The components of a region are found by one search, unless that is too much work: none is empty,
each is ascending, and they divide the region into the states that lead to each other within it. -/
theorem regionComponents_by_lowLink (hregion : ∀ v ∈ region, v < s.size) (maxStates : Nat) :
    let work := s.work + (region.length + (s.regionGraph region).edgeCount)
    let components := (s.regionGraph region).lowLinkComponents region
    (s.regionComponents maxStates region =
      if work ≤ workLimit maxStates then .ok (components, { s with work }) else .error tooLarge) ∧
      (∀ c ∈ components, c ≠ [] ∧ c.Pairwise (· < ·)) ∧ components.flatten.Nodup ∧
      (∀ v, v ∈ components.flatten ↔ v ∈ region) ∧
      ∀ v ∈ region, ∀ w ∈ region, (∃ c ∈ components, v ∈ c ∧ w ∈ c) ↔
        s.LeadsWithin region v w ∧ s.LeadsWithin region w v := by
  intro work components
  have hsize : ∀ v ∈ region, v < (s.regionGraph region).size := by simpa using hregion
  have hedges : ∀ v, ∀ w ∈ (s.regionGraph region).next v,
      w ∈ region ∧ w < (s.regionGraph region).size := fun v w hw => by
    obtain ⟨-, -, hw, -⟩ := mem_next_regionGraph.mp hw
    exact ⟨hw, hsize w hw⟩
  have heq : components = (s.regionGraph region).components region :=
    Graph.lowLinkComponents_eq hedges hsize
  obtain ⟨search, hsearch, hcomplete, hall, hfrom, -⟩ :=
    Graph.lowLinkComponents_spec (fun v w hw => (hedges v w hw).2) hsize
  have hsearch : components = search.components := hsearch
  have hmem : ∀ v, v ∈ components.flatten ↔ v ∈ region := fun v => by
    rw [hsearch]
    exact ⟨fun hv => (hfrom v hv).elim id fun ⟨u, hu⟩ => (hedges u v hu).1, hall v⟩
  refine ⟨?_, fun c hc => ?_, hsearch ▸ hcomplete.nodup, hmem, fun v hv w hw => ?_⟩
  · rw [heq]
    have hcharge : s.charge maxStates (region.length + (s.regionGraph region).edgeCount) =
      if work ≤ workLimit maxStates then .ok { s with work } else .error tooLarge := rfl
    change (s.charge maxStates (region.length + (s.regionGraph region).edgeCount) >>= _) = _
    rw [hcharge]
    split <;> rfl
  · rw [hsearch] at hc
    exact ⟨hcomplete.ne_nil c hc, hcomplete.sorted c hc⟩
  · rw [← leads_regionGraph hregion, ← leads_regionGraph hregion]
    constructor
    · rintro ⟨c, hc, hvc, hwc⟩
      exact (hcomplete.component c (hsearch ▸ hc) v hvc w).mp hwc
    · intro h
      obtain ⟨c, hc, hvc⟩ := List.mem_flatten.mp ((hmem v).mpr hv)
      exact ⟨c, hc, hvc, (hcomplete.component c (hsearch ▸ hc) v hvc w).mpr h⟩

/-- From 1 two edges lead to 0, and one leads by way of 4 and 3 back to 0. The state 2 leads to itself. -/
def detour : Splitting where
  states := #[{ transitions := [⟨.single 97, 1, [], none⟩] },
    { transitions := [⟨.single 97, 0, [], none⟩, ⟨.single 98, 0, [], none⟩, ⟨.single 99, 4, [], none⟩] },
    { entry := some 2, transitions := [⟨.single 97, 0, [], none⟩] },
    { transitions := [⟨.single 97, 0, [], none⟩] },
    { transitions := [⟨.single 97, 3, [], none⟩] }]
  rootStart := 0
  rootMid := 0

/-- Within a region without 4 nothing leads to 3, so 3 is a component of its own. -/
theorem regionComponents_by_lowLink_detour :
    (∃ s, detour.regionComponents 1 [0, 1, 2, 3] = .ok ([[0, 1], [2], [3]], s) ∧ s.work = 10) ∧
      (∃ s, detour.regionComponents 1 [0, 1, 2, 3, 4] = .ok ([[0, 1, 3, 4], [2]], s)) ∧
      (∃ e, detour.regionComponents 0 [0, 1, 2, 3] = .error e) ∧
      detour.LeadsWithin [0, 1, 2, 3] 0 1 ∧ ¬detour.LeadsWithin [0, 1, 2, 3] 1 3 := by
  have hin : ∀ v ∈ [0, 1, 2, 3], v < detour.size := by decide
  have hin' : ∀ v ∈ [0, 1, 2, 3, 4], v < detour.size := by decide
  obtain ⟨hpart, -, -, -, hiff⟩ := regionComponents_by_lowLink hin 1
  obtain ⟨hwhole, -⟩ := regionComponents_by_lowLink hin' 1
  obtain ⟨hfails, -⟩ := regionComponents_by_lowLink hin 0
  have hcomponents : (detour.regionGraph [0, 1, 2, 3]).lowLinkComponents [0, 1, 2, 3] =
      [[0, 1], [2], [3]] := by decide +kernel
  have hcomponents' : (detour.regionGraph [0, 1, 2, 3, 4]).lowLinkComponents [0, 1, 2, 3, 4] =
      [[0, 1, 3, 4], [2]] := by decide +kernel
  rw [hcomponents] at hpart hiff
  rw [hcomponents'] at hwhole
  refine ⟨⟨_, hpart.trans (if_pos (by decide)), by decide⟩, ⟨_, hwhole.trans (if_pos (by decide))⟩,
    ⟨_, hfails.trans (if_neg (by decide))⟩, ?_, fun hleads => ?_⟩
  · exact ((hiff 0 (by decide) 1 (by decide)).mp ⟨[0, 1], by decide⟩).1
  · have hback : detour.LeadsWithin [0, 1, 2, 3] 3 1 :=
      .tail (b := 0) (.single ⟨by decide, by decide, by decide⟩) ⟨by decide, by decide, by decide⟩
    obtain ⟨c, hc, h1, h3⟩ := (hiff 1 (by decide) 3 (by decide)).mpr ⟨hleads, hback⟩
    revert c
    decide

end PatternAutomata.Dfa.Splitting
