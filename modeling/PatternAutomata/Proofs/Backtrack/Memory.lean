import PatternAutomata.Proofs.Backtrack.Ways

/-!
# What is remembered

The ways to match a node do not depend on what is remembered of them: two recorders that keep a
relation between their memories give the same ways with related memories. What one recorder keeps
of every memory is the case of a relation between equal memories.
-/

namespace PatternAutomata

variable {σ τ : Type}

/-- The operations of a group when it is entered or left. -/
inductive Group.Marks (g : Group) : CaptureOp → Prop
  | reset (h : g.isQuantifier = true) : Marks g (.reset g.innerStart g.innerEnd)
  | start {n : Nat} (h : g.number? = some n) : Marks g (.start n)
  | stop {n : Nat} (h : g.number? = some n) : Marks g (.stop n)

/-- Two spots at one position with related memories. -/
structure Spot.Related (R : σ → τ → Prop) (s : Spot σ) (s' : Spot τ) : Prop where
  position_eq : s'.position = s.position
  memory : R s.memory s'.memory

namespace Tree

variable {t : Tree} {x : Subject} {r : Recorder σ} {q : Recorder τ} {R : σ → τ → Prop}
  {S : NodeId → Prop} {first : Nat} {id : NodeId} {g : Group} {s : Spot σ} {s' : Spot τ}

/-- Two recorders keep the relation between their memories at the nodes in `S`, which are closed
downward, and at positions from `first` on. -/
structure Keeps (t : Tree) (x : Subject) (r : Recorder σ) (q : Recorder τ) (R : σ → τ → Prop)
    (S : NodeId → Prop) (first : Nat) : Prop where
  below : ∀ id, S id → ∀ c ∈ (t.kind id).children, S c
  mark : ∀ id g op, S id → t.kind id = .group g → g.Marks op → ∀ p, first ≤ p → ∀ m m', R m m' →
    R (r.mark op p m) (q.mark op p m')
  look : ∀ id l, S id → t.kind id = .look l → l.direction = .ahead → ∀ p, first ≤ p →
    ∀ m m' s s', R m m' → (t.ways x r l.body ⟨p, m⟩).head? = some s →
    (t.ways x q l.body ⟨p, m'⟩).head? = some s' → R s.memory s'.memory →
    R (r.look id p m s.memory) (q.look id p m' s'.memory)

section Keeps

variable {next : NodeId → Spot σ → List (Spot σ)} {next' : NodeId → Spot τ → List (Spot τ)}

/-- From related spots on, `next` and `next'` go to related spots. -/
def Alike (R : σ → τ → Prop) (first : Nat) (next : NodeId → Spot σ → List (Spot σ))
    (next' : NodeId → Spot τ → List (Spot τ)) (id : NodeId) : Prop :=
  ∀ s s', s.Related R s' → first ≤ s.position →
    List.Forall₂ (fun a b => a.Related R b ∧ first ≤ a.position) (next id s) (next' id s')

theorem related_enter (hk : Keeps t x r q R S first) (hid : S id) (hg : t.kind id = .group g)
    (hs : s.Related R s') (hfirst : first ≤ s.position) :
    (g.enter r s).Related R (g.enter q s') := by
  obtain ⟨p, m⟩ := s
  obtain ⟨p', m'⟩ := s'
  obtain ⟨rfl, hm⟩ := hs
  have hreset : g.isQuantifier = true → R (r.mark (.reset g.innerStart g.innerEnd) p' m)
      (q.mark (.reset g.innerStart g.innerEnd) p' m') := fun hq =>
    hk.mark id g _ hid hg (.reset hq) p' hfirst m m' hm
  unfold Group.enter
  simp only
  split
  · rename_i n hn
    refine ⟨by split <;> rfl, ?_⟩
    split
    · rename_i hq
      exact hk.mark id g _ hid hg (.start hn) p' hfirst _ _ (hreset hq)
    · exact hk.mark id g _ hid hg (.start hn) p' hfirst m m' hm
  · split
    · rename_i hq
      exact ⟨rfl, hreset hq⟩
    · exact ⟨rfl, hm⟩

theorem related_exit (hk : Keeps t x r q R S first) (hid : S id) (hg : t.kind id = .group g)
    (hs : s.Related R s') (hfirst : first ≤ s.position) : (g.exit r s).Related R (g.exit q s') := by
  obtain ⟨p, m⟩ := s
  obtain ⟨p', m'⟩ := s'
  obtain ⟨rfl, hm⟩ := hs
  unfold Group.exit
  split
  · rename_i n hn
    exact ⟨rfl, hk.mark id g _ hid hg (.stop hn) p' hfirst m m' hm⟩
  · exact ⟨rfl, hm⟩

theorem related_inTurn {ids : List NodeId} (h : ∀ c ∈ ids, Alike R first next next' c)
    (hs : s.Related R s') (hfirst : first ≤ s.position) :
    List.Forall₂ (fun a b => a.Related R b ∧ first ≤ a.position) (inTurn next ids s)
      (inTurn next' ids s') := by
  induction ids generalizing s s' with
  | nil => exact .cons ⟨hs, hfirst⟩ .nil
  | cons c ids ih =>
    exact List.rel_flatMap (h c (by simp) s s' hs hfirst) fun a b hab =>
      ih (fun c hc => h c (by simp [hc])) hab.1 hab.2

theorem related_iteration (hk : Keeps t x r q R S first) (hid : S id) (hg : t.kind id = .group g)
    {begin : NodeId} {others : List NodeId} (h : ∀ c ∈ begin :: others, Alike R first next next' c)
    (hs : s.Related R s') (hfirst : first ≤ s.position) :
    List.Forall₂ (fun a b => a.Related R b ∧ first ≤ a.position)
      (iteration t r g next begin others s) (iteration t q g next' begin others s') := by
  have henter := related_enter hk hid hg hs hfirst
  refine List.rel_flatMap (R := fun a b => a.Related R b ∧ first ≤ a.position)
    (List.rel_filter ?_ (h begin (by simp) _ _ henter ?_)) ?_
  · rintro a b ⟨hab, -⟩
    simp only [hab.position_eq, hs.position_eq]
  · simpa using hfirst
  · rintro a b ⟨hab, ha⟩
    refine List.rel_map (R := fun a b => a.Related R b ∧ first ≤ a.position) ?_
      (related_inTurn (fun c hc => h c (List.mem_cons_of_mem _ hc)) hab ha)
    rintro a b ⟨hab, ha⟩
    exact ⟨related_exit hk hid hg hab ha, by simpa using ha⟩

theorem related_groupWays (hk : Keeps t x r q R S first) (hid : S id) (hg : t.kind id = .group g)
    (h : ∀ a ∈ g.alternatives, ∀ c ∈ t.terms a, Alike R first next next' c) (count : Nat)
    (hs : s.Related R s') (hfirst : first ≤ s.position) :
    List.Forall₂ (fun a b => a.Related R b ∧ first ≤ a.position) (groupWays t r g next count s)
      (groupWays t q g next' count s') := by
  induction count generalizing s s' with
  | zero => exact .nil
  | succ count ih =>
    refine List.rel_flatMap (R := fun a b => a = b ∧ a ∈ g.alternatives) ?_ ?_
    · exact List.forall₂_same.mpr fun a ha => ⟨rfl, ha⟩
    · rintro a _ ⟨rfl, ha⟩
      have hnext := h a ha
      cases hterms : t.terms a with
      | nil =>
        simp only [hterms]
        split
        · exact .cons ⟨hs, hfirst⟩ .nil
        · refine .cons ⟨related_exit hk hid hg (related_enter hk hid hg hs hfirst) ?_, ?_⟩ .nil
          · simpa using hfirst
          · simpa using hfirst
      | cons begin others =>
        rw [hterms] at hnext
        have hends := related_iteration hk hid hg hnext hs hfirst
        simp only [hterms]
        split
        · exact List.rel_flatMap hends fun a b hab => ih hab.1 hab.2
        · exact hends

end Keeps

theorem related_lookWays (hk : Keeps t x r q R S first) (hid : S id) {l : LookAround}
    (hl : t.kind id = .look l) (hbody : Alike R first (t.ways x r) (t.ways x q) l.body)
    (hs : s.Related R s') (hfirst : first ≤ s.position) :
    List.Forall₂ (fun a b => a.Related R b ∧ first ≤ a.position)
      (lookWays t x r id l (t.ways x r) s) (lookWays t x q id l (t.ways x q) s') := by
  have hbody := hbody s s' hs hfirst
  unfold lookWays
  cases hdirection : l.direction with
  | ahead =>
    simp only
    cases hways : t.ways x r l.body s with
    | nil =>
      rw [hways] at hbody
      rw [List.forall₂_nil_left_iff.mp hbody]
      simp only [List.head?_nil]
      split
      · exact .cons ⟨hs, hfirst⟩ .nil
      · exact .nil
    | cons a as =>
      rw [hways] at hbody
      obtain ⟨b, bs, hab, -, hways'⟩ := List.forall₂_cons_left_iff.mp hbody
      rw [hways']
      simp only [List.head?_cons]
      split
      · exact .nil
      · refine .cons ⟨⟨hs.position_eq, ?_⟩, hfirst⟩ .nil
        rw [hs.position_eq]
        refine hk.look id l hid hl hdirection _ hfirst _ _ a b hs.memory (by rw [hways]; rfl) ?_
          hab.1.memory
        have heq : (⟨s.position, s'.memory⟩ : Spot τ) = s' := by rw [← hs.position_eq]
        rw [heq, hways']
        rfl
  | behind =>
    simp only [hs.position_eq]
    cases LookBehindTable.literalBody? t l.body with
    | none => exact .nil
    | some classes =>
      by_cases heq : x.endsWith s.position classes = l.negated
      · simp only [heq, ite_true]
        exact .nil
      · simp only [heq, ite_false]
        exact .cons ⟨hs, hfirst⟩ .nil

/-- Recorders that keep a relation between their memories give the same ways, with related ones. -/
theorem alike_ways (h : t.WellFormed) (hk : Keeps t x r q R S first) (hid : S id) :
    Alike R first (t.ways x r) (t.ways x q) id := by
  induction id using Nat.strongRecOn with
  | ind id ih =>
    have hchild : ∀ c ∈ (t.kind id).children, Alike R first (t.ways x r) (t.ways x q) c :=
      fun c hc => ih c (h.child_lt id c hc) (hk.below id hid c hc)
    intro s s' hs hfirst
    cases hkind : t.kind id with
    | charClass set =>
      rw [ways_charClass h hkind, ways_charClass h hkind, hs.position_eq]
      split
      · exact .cons ⟨⟨rfl, hs.memory⟩, Nat.le_succ_of_le hfirst⟩ .nil
      · exact .nil
    | backReference n =>
      rw [ways_backReference h hkind, ways_backReference h hkind]
      exact .nil
    | assertion a =>
      rw [ways_assertion h hkind, ways_assertion h hkind, hs.position_eq]
      split
      · exact .cons ⟨hs, hfirst⟩ .nil
      · exact .nil
    | group g =>
      rw [ways_groupWays h hkind, ways_groupWays h hkind, hs.position_eq]
      refine related_groupWays hk hid hkind (fun a ha c hc => ?_) _ hs hfirst
      have ha' := hk.below id hid a (mem_children_of_alternative hkind ha)
      exact ih c (h.term_lt hkind ha hc) (hk.below a ha' c (mem_children_of_mem_terms hc))
    | look l =>
      rw [ways_look h hkind, ways_look h hkind]
      exact related_lookWays hk hid hkind (hchild l.body (body_mem_children hkind))
        hs hfirst
    | sequence terms =>
      rw [ways_sequence h hkind, ways_sequence h hkind]
      exact .nil
    | matchFound =>
      rw [ways_matchFound h hkind, ways_matchFound h hkind]
      exact .nil

/-- What a recorder keeps of its memories holds of those of all ways. -/
theorem Alike.memory {P : σ → Prop} {next : NodeId → Spot σ → List (Spot σ)}
    (h : Alike (fun m m' => m = m' ∧ P m) first next next id) (hfirst : first ≤ s.position)
    (hs : P s.memory) {a : Spot σ} (ha : a ∈ next id s) : P a.memory := by
  have hall := h s s ⟨rfl, rfl, hs⟩ hfirst
  obtain ⟨k, hk, rfl⟩ := List.mem_iff_getElem.mp ha
  have hrelated := hall.get hk hk
  exact hrelated.1.memory.2

end Tree

end PatternAutomata
