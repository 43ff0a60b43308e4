import PatternAutomata.Compile
import PatternAutomata.Proofs.Dfa.Scan

/-!
# Distances stay short

With traces, every distance was one shorter in another thread. So a distance is at most the number
of all threads, and no pattern within the limits reaches the largest distance. Hence both kinds of
automata give what trying gives.
-/

namespace PatternAutomata.Dfa

variable {n : Nfa} {p : Plan} {d : Discovered n}

/-- The threads of all keys. -/
def Discovered.threads (d : Discovered n) : List Thread := d.keys.items.toList.flatMap Key.threads

theorem Discovered.mem_threads {t : Thread} :
    t ∈ d.threads ↔ ∃ i k, d.keys.get? i = some k ∧ t ∈ k.threads := by
  rw [threads, List.mem_flatMap]
  constructor
  · rintro ⟨k, hk, ht⟩
    obtain ⟨i, hi, rfl⟩ := List.mem_iff_getElem.mp hk
    exact ⟨i, _, by simp [Interner.get?], ht⟩
  · rintro ⟨i, k, hi, ht⟩
    exact ⟨k, Array.mem_toList_iff.mpr (Array.mem_of_getElem? hi), ht⟩

theorem length_threads_le (hv : Valid p d) :
    d.threads.length ≤ max 1 p.maxStates * max 1 p.maxThreads := by
  have hcount : ∀ ks : List Key, (∀ k ∈ ks, k.threads.length ≤ max 1 p.maxThreads) →
      (ks.flatMap Key.threads).length ≤ ks.length * max 1 p.maxThreads := by
    intro ks
    induction ks with
    | nil => simp
    | cons k ks ih =>
      intro h
      have h1 := h k (by simp)
      have h2 := ih fun k hk => h k (by simp [hk])
      rw [List.flatMap_cons, List.length_append, List.length_cons, Nat.succ_mul]
      omega
  refine Nat.le_trans (hcount _ fun k hk => ?_) (Nat.mul_le_mul_right _ hv.size)
  obtain ⟨i, hi, rfl⟩ := List.mem_iff_getElem.mp hk
  exact (hv.keys i _ (by simp [Interner.get?])).count

/-- Every distance is the end of a row of distances, each in a thread. -/
theorem exists_shorter (hv : Valid p d) {j e e' : Nat} {t : Thread} (ht : t ∈ d.threads)
    (hj : t.captures[j]? = some (some e)) (he : 0 < e') (hle : e' ≤ e) :
    ∃ t' ∈ d.threads, t'.captures[j]? = some (some e') := by
  induction e generalizing t with
  | zero => omega
  | succ e ih =>
    rcases Nat.lt_or_eq_of_le hle with hlt | rfl
    · obtain ⟨i, k, hi, hk⟩ := Discovered.mem_threads.mp ht
      obtain ⟨e, rfl⟩ : ∃ e', e = e' + 1 := ⟨e - 1, by omega⟩
      obtain ⟨i', k', hi', t', ht', hj'⟩ := (hv.keys i k hi).traceable t hk j e hj
      exact ih (Discovered.mem_threads.mpr ⟨i', k', hi', ht'⟩) hj' (by omega)
    · exact ⟨t, ht, hj⟩

theorem shortDistances (hv : Valid p d)
    (hp : max 1 p.maxStates * max 1 p.maxThreads < RelativeCaptures.maxDistance) :
    ShortDistances d := by
  intro groups _ i k hi t ht j e hj
  have hmem := Discovered.mem_threads.mpr ⟨i, k, hi, ht⟩
  have hsub : (List.range' 1 e).map (fun e' => some (some e')) ⊆
      d.threads.map fun t => t.captures[j]? := by
    intro x hx
    obtain ⟨e', he', rfl⟩ := List.mem_map.mp hx
    rw [List.mem_range'_1] at he'
    obtain ⟨t', ht', hj'⟩ := exists_shorter hv hmem hj (by omega) (by omega : e' ≤ e)
    exact List.mem_map.mpr ⟨t', ht', hj'⟩
  have hnodup : ((List.range' 1 e).map (fun e' => some (some e'))).Nodup := by
    refine List.Pairwise.map _ (fun a b hab h => hab ?_) (List.nodup_range' ..)
    simpa using h
  have hlen := hnodup.length_le_of_subset hsub
  rw [List.length_map, List.length_map, List.length_range'] at hlen
  have := length_threads_le hv
  omega

end PatternAutomata.Dfa
