import PatternAutomata.Dfa.Reducible
import PatternAutomata.Proofs.Graph
import PatternAutomata.Proofs.Results

/-!
# Regions and their components

The loops of a region are among the components of the edges that stay in it.
-/

namespace PatternAutomata.Dfa.Splitting

variable {s s' : Splitting} {region : List StateId} {maxStates : Nat} {v w : StateId}

/-- The states to which a state leads. -/
def successors (s : Splitting) (v : StateId) : List StateId := (s.states.getD v {}).successors

theorem successors_beyond (hv : s.size ≤ v) : s.successors v = [] := by
  rw [successors, Array.getD_eq_getD_getElem?, Array.getElem?_eq_none_iff.mpr hv]
  rfl

theorem lt_size_of_mem_successors (h : w ∈ s.successors v) : v < s.size :=
  Nat.lt_of_not_le fun hv => by
    rw [successors_beyond hv] at h
    cases h

theorem flags_iff {n : Nat} {vs : List Nat} {v : Nat} :
    (flags n vs).getD v false = true ↔ v ∈ vs ∧ v < n := by
  rw [Array.getD_eq_getD_getElem?, flags, (Graph.getElem?_foldl_set ..).2, Array.size_replicate]
  split
  · rename_i h
    simpa using h
  · rename_i h
    rw [Array.getElem?_replicate]
    split <;> simp [h]

@[simp] theorem next_graph : s.graph.next v = s.successors v := by
  rw [Graph.next, graph, successors, Array.getD_eq_getD_getElem?, Array.getD_eq_getD_getElem?,
    Array.getElem?_map]
  cases s.states[v]? <;> rfl

@[simp] theorem size_graph : s.graph.size = s.size := Array.size_map ..

@[simp] theorem size_regionGraph : (s.regionGraph region).size = s.size := Array.size_mapIdx ..

theorem mem_next_regionGraph : w ∈ (s.regionGraph region).next v ↔
    w ∈ s.successors v ∧ v ∈ region ∧ w ∈ region ∧ w < s.size := by
  by_cases hv : v < s.size
  · have hget : s.states[v]? = some s.states[v] := Array.getElem?_eq_getElem hv
    rw [Graph.next, regionGraph, successors, Array.getD_eq_getD_getElem?,
      Array.getD_eq_getD_getElem?, Array.getElem?_mapIdx, hget]
    simp only [Option.map_some, Option.getD_some, flags_iff]
    split
    · rename_i h
      rw [List.mem_filter, flags_iff]
      simp only [h.1, true_and]
    · rename_i h
      simp only [List.not_mem_nil, false_iff]
      exact fun hw => h ⟨hw.2.1, hv⟩
  · have hle := Nat.le_of_not_lt hv
    rw [successors_beyond hle, Graph.next, Array.getD_eq_getD_getElem?,
      Array.getElem?_eq_none_iff.mpr (size_regionGraph ▸ hle)]
    simp

/-- Charging work changes nothing else. -/
theorem charge_eq_ok {work : Nat} (h : s.charge maxStates work = .ok s') :
    ∃ total, s' = { s with work := total } := by
  unfold charge at h
  split at h
  · cases h
    exact ⟨_, rfl⟩
  · cases h

theorem regionComponents_eq_ok {components : List (List StateId)}
    (h : s.regionComponents maxStates region = .ok (components, s')) :
    components = (s.regionGraph region).components region ∧ ∃ total, s' = { s with work := total } := by
  obtain ⟨s1, hcharge, h⟩ := bind_eq_ok.mp h
  cases h
  exact ⟨rfl, charge_eq_ok hcharge⟩

/-- Edges lead out of every state of a component of several states. -/
theorem successors_ne_nil_of_component {component : List StateId}
    (hc : component ∈ (s.regionGraph region).components region) (hlength : 2 ≤ component.length)
    (hv : v ∈ component) : s.successors v ≠ [] := by
  obtain ⟨hnodup, -, hlinked⟩ := Graph.components_spec (s.regionGraph region) region
  have hcnodup : component.Nodup := (List.pairwise_flatten.mp hnodup).1 _ hc
  obtain ⟨w, hw, hne⟩ : ∃ w ∈ component, v ≠ w := by
    match component, hlength, hcnodup with
    | a :: b :: rest, _, hnodup =>
      by_cases hva : v = a
      · refine ⟨b, by simp, fun hvb => ?_⟩
        have hab := (List.nodup_cons.mp hnodup).1
        exact hab (by simp [← hva, ← hvb])
      · exact ⟨a, by simp, hva⟩
  obtain ⟨u, hu, -⟩ := ((hlinked _ hc v hv w).mp hw).1.exists_next hne
  exact List.ne_nil_of_mem (mem_next_regionGraph.mp hu).1

end PatternAutomata.Dfa.Splitting
