import PatternAutomata.Pattern.Quantifier
import PatternAutomata.Proofs.Tree.Copying

/-!
# Which kinds of nodes a tree grows

Growing a tree adds nodes, and looks at nodes only to copy them. So it does the same in an arena
with more room, and what holds of the kinds of all nodes stays true if it holds of the kinds that
are added. Both are stated of two arenas at once: the second one has the same nodes and at least as
much room, and the kinds of the nodes satisfy `K`.
-/

namespace PatternAutomata

/-- The second arena holds the same nodes, all of which satisfy `K`, and has at least as much
room. -/
structure Arena.Roomier (K : NodeKind → Prop) (a a' : Arena) : Prop where
  kinds_eq : a'.kinds = a.kinds
  limit_le : a.limit ≤ a'.limit
  all : ∀ k ∈ a.kinds, K k

/-- The nodes that hold others together satisfy `K`, whichever others these are. Groups need only do
so if they do not capture, and if the captures inside them end before `hi`. -/
structure NodeKind.Structural (K : NodeKind → Prop) (hi : Nat) : Prop where
  matchFound : K .matchFound
  sequence : ∀ terms, K (.sequence terms)
  look : ∀ l, K (.look l)
  group : ∀ g : Group, g.number? = none → g.innerEnd = hi → K (.group g)
  regroup : ∀ (g : Group) (alternatives : List NodeId), K (.group g) →
    K (.group { g with alternatives })

namespace Grow

variable {α β ι : Type} {K : NodeKind → Prop} {a b : Arena} {hi : Nat}

/-- In an arena with more room the computation does the same, and it adds only nodes that satisfy
`K`. -/
def Carries (K : NodeKind → Prop) (g : Grow α) : Prop :=
  ∀ a a' v b, a.Roomier K a' → g.run a = .ok (v, b) → ∃ b', g.run a' = .ok (v, b') ∧ b.Roomier K b'

/-- The kinds of nodes that a computation leaves behind. -/
theorem Carries.all {g : Grow α} {v : α} (hg : Carries K g) (ha : ∀ k ∈ a.kinds, K k)
    (h : g.run a = .ok (v, b)) : ∀ k ∈ b.kinds, K k :=
  let ⟨_, _, hb⟩ := hg a a v b ⟨rfl, Nat.le_refl _, ha⟩ h
  hb.all

theorem carries_pure (v : α) : Carries K (pure v : Grow α) := by
  intro a a' w b ha h
  obtain ⟨rfl, rfl⟩ := pure_eq_ok.mp h
  exact ⟨a', rfl, ha⟩

theorem carries_bind {g : Grow α} {f : α → Grow β} (hg : Carries K g)
    (hf : ∀ v, Carries K (f v)) : Carries K (g >>= f) := by
  intro a a' w c ha h
  obtain ⟨v, b, hv, hw⟩ := bind_eq_ok.mp h
  obtain ⟨b', hv', hb⟩ := hg a a' v b ha hv
  obtain ⟨c', hw', hc⟩ := hf v b b' w c hb hw
  exact ⟨c', bind_eq_ok.mpr ⟨v, b', hv', hw'⟩, hc⟩

/-- Of the arena only the nodes are looked at. -/
theorem carries_get_bind {f : Arena → Grow β} (hf : ∀ a a', a'.kinds = a.kinds → f a' = f a)
    (h : ∀ a : Arena, (∀ k ∈ a.kinds, K k) → Carries K (f a)) :
    Carries K ((get : Grow Arena) >>= f) := by
  intro a a' w c ha hw
  rw [get_bind] at hw
  obtain ⟨c', hw', hc⟩ := h a ha.all a a' w c ha hw
  exact ⟨c', by rw [get_bind, hf a a' ha.kinds_eq]; exact hw', hc⟩

theorem carries_add {k : NodeKind} (hk : K k) : Carries K (add k) := by
  intro a a' v b ha h
  simp only [add, StateT.run] at h ⊢
  split at h
  · rename_i hroom
    cases h
    refine ⟨{ a' with kinds := a'.kinds.push k }, ?_, by rw [ha.kinds_eq], ha.limit_le,
      fun k' hk' => ?_⟩
    · rw [if_pos (by rw [ha.kinds_eq]; exact Nat.lt_of_lt_of_le hroom ha.limit_le), ha.kinds_eq]
    rcases Array.mem_push.mp hk' with hk' | rfl
    · exact ha.all k' hk'
    · exact hk
  · cases h

theorem carries_mapM {f : ι → Grow α} {is : List ι} (hf : ∀ i ∈ is, Carries K (f i)) :
    Carries K (is.mapM f) := by
  induction is with
  | nil => exact carries_pure []
  | cons i is ih =>
    rw [List.mapM_cons]
    exact carries_bind (hf i (by simp)) fun v =>
      carries_bind (ih fun j hj => hf j (by simp [hj])) fun vs => carries_pure (v :: vs)

theorem carries_foldrM {f : ι → β → Grow β} {is : List ι} (hf : ∀ i v, Carries K (f i v)) (v : β) :
    Carries K (is.foldrM f v) := by
  induction is with
  | nil => exact carries_pure v
  | cons i is ih =>
    rw [List.foldrM_cons]
    exact carries_bind ih fun w => hf i w

/-! ## Sequences, groups and copies -/

variable (hK : NodeKind.Structural K hi)
include hK

theorem carries_sequence (terms : List NodeId) : Carries K (sequence terms) :=
  carries_add (hK.sequence terms)

theorem carries_look (direction : Direction) (negated : Bool) (body : NodeId) :
    Carries K (look direction negated body) :=
  carries_bind (carries_add hK.matchFound) fun _ => carries_add (hK.look _)

theorem carries_copyWithin (fuel : Nat) (id : NodeId) : Carries K (copyWithin fuel id) := by
  induction fuel generalizing id with
  | zero => exact carries_pure id
  | succ fuel ih =>
    refine carries_get_bind (fun a a' h => by simp only [h]) fun a ha => ?_
    have hkind : K (a.kinds.getD id .matchFound) := by
      rw [Array.getD_eq_getD_getElem?]
      cases hget : a.kinds[id]? with
      | none => exact hK.matchFound
      | some k => exact ha k (Array.mem_of_getElem? hget)
    split
    · rename_i g hg
      exact carries_bind (carries_mapM fun c _ => ih c) fun cs =>
        carries_add (hK.regroup g cs (hg ▸ hkind))
    · exact carries_bind (carries_mapM fun c _ => ih c) (carries_sequence hK)
    · exact carries_bind (ih _) (carries_look hK _ _)
    · exact carries_add hkind

theorem carries_copy (id : NodeId) : Carries K (copy id) :=
  carries_get_bind (fun a a' h => by simp only [h]) fun _ _ => carries_copyWithin hK _ id

end Grow

/-! ## Quantifiers -/

namespace Pattern

open Grow

variable {K : NodeKind → Prop} {hi : Nat} (hK : NodeKind.Structural K hi)
include hK

theorem carries_instanceOf (atom : NodeId) (used : Bool) : Carries K (instanceOf atom used) := by
  unfold instanceOf
  split
  · exact carries_copy hK atom
  · exact carries_pure atom

theorem carries_optional (terms : List NodeId) (greedy : Bool) {role : GroupRole}
    (hrole : ∀ n, role ≠ .capture n) (lo : Nat) :
    Carries K (optional terms greedy role lo hi) := by
  refine carries_bind (carries_sequence hK terms) fun body =>
    carries_bind (carries_sequence hK []) fun empty => carries_add (hK.group _ ?_ rfl)
  cases role with
  | capture n => exact absurd rfl (hrole n)
  | _ => rfl

theorem carries_mandatory (atom : NodeId) (lo n : Nat) (used : Bool) :
    Carries K (mandatory atom lo hi n used) := by
  induction n generalizing used with
  | zero => exact carries_pure []
  | succ n ih =>
    refine carries_bind (carries_instanceOf hK atom used) fun iteration => ?_
    have hrest : ∀ term, Carries K (mandatory atom lo hi n true >>= fun more => pure (term :: more)) :=
      fun term => carries_bind (ih true) fun more => carries_pure (term :: more)
    simp only
    split
    · exact carries_bind (carries_sequence hK _) fun body =>
        carries_bind (carries_add (hK.group _ rfl rfl)) hrest
    · exact hrest iteration

theorem carries_instances (atom : NodeId) (n : Nat) (used : Bool) :
    Carries K (instances atom n used) := by
  induction n generalizing used with
  | zero => exact carries_pure []
  | succ n ih =>
    exact carries_bind (carries_instanceOf hK atom used) fun iteration =>
      carries_bind (ih true) fun more => carries_pure (iteration :: more)

theorem carries_nested (bodies : List NodeId) (greedy : Bool) (lo : Nat) :
    Carries K (nested bodies greedy lo hi) :=
  carries_foldrM (fun body inner => carries_bind
    (carries_optional hK (body :: inner) greedy (by simp) lo) fun term => carries_pure [term]) []

theorem carries_quantify (q : Quantifier) (atom : NodeId) (lo : Nat) :
    Carries K (quantify q atom lo hi) := by
  refine carries_bind (carries_mandatory hK atom lo q.min false) fun needed => ?_
  cases hmax : q.max with
  | none =>
    exact carries_bind (carries_instanceOf hK atom _) fun body =>
      carries_bind (carries_optional hK [body] q.greedy (by simp) lo) fun loop =>
        carries_pure (needed ++ [loop])
  | some max =>
    exact carries_bind (carries_instances hK atom _ _) fun bodies =>
      carries_bind (carries_nested hK bodies q.greedy lo) fun terms =>
        carries_pure (needed ++ terms)

end Pattern

end PatternAutomata
