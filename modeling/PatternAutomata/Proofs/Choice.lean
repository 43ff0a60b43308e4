/-!
# Ordered choice

`FirstOf A as r` says that trying `as` in order gives `r`, where `A a b` says that trying `a` gives
`b`. Nothing is said about what comes after the first success, so a search that stops there needs
no answers for it. For answers that a function gives this is `List.findSome?`.
-/

namespace PatternAutomata

variable {α β γ : Type}

inductive FirstOf (A : α → Option β → Prop) : List α → Option β → Prop
  | nil : FirstOf A [] none
  | found {a : α} {as : List α} {b : β} (h : A a (some b)) : FirstOf A (a :: as) (some b)
  | skip {a : α} {as : List α} {r : Option β} (h : A a none) (rest : FirstOf A as r) :
    FirstOf A (a :: as) r

namespace FirstOf

variable {A B : α → Option β → Prop} {as bs : List α} {r s : Option β}

theorem mono (hAB : ∀ a ∈ as, ∀ r, A a r → B a r) (h : FirstOf A as r) : FirstOf B as r := by
  induction h with
  | nil => exact .nil
  | found h => exact .found (hAB _ (by simp) _ h)
  | skip h rest ih =>
    exact .skip (hAB _ (by simp) _ h) (ih fun a ha => hAB a (by simp [ha]))

theorem none_iff : FirstOf A as none ↔ ∀ a ∈ as, A a none := by
  induction as with
  | nil => exact ⟨fun _ => by simp, fun _ => .nil⟩
  | cons a as ih =>
    constructor
    · rintro (_ | _ | ⟨h, rest⟩)
      simpa [h] using ih.mp rest
    · intro h
      exact .skip (h a (by simp)) (ih.mpr fun b hb => h b (by simp [hb]))

theorem singleton_iff {a : α} : FirstOf A [a] r ↔ A a r := by
  constructor
  · rintro (_ | h | ⟨h, ⟨⟩⟩) <;> exact h
  · intro h
    cases r with
    | none => exact .skip h .nil
    | some b => exact .found h

/-- A success has failures before it. -/
theorem some_iff {b : β} :
    FirstOf A as (some b) ↔
      ∃ before a after, as = before ++ a :: after ∧ (∀ c ∈ before, A c none) ∧ A a (some b) := by
  constructor
  · intro h
    induction as with
    | nil => cases h
    | cons a as ih =>
      rcases h with _ | h | ⟨h, rest⟩
      · exact ⟨[], a, as, rfl, by simp, h⟩
      · obtain ⟨before, c, after, rfl, hb, hc⟩ := ih rest
        exact ⟨a :: before, c, after, rfl, by simpa [h] using hb, hc⟩
  · rintro ⟨before, a, after, rfl, hb, ha⟩
    induction before with
    | nil => exact .found ha
    | cons c before ih => exact .skip (hb c (by simp)) (ih fun d hd => hb d (by simp [hd]))

theorem append_none (h : FirstOf A as none) (h' : FirstOf A bs r) : FirstOf A (as ++ bs) r := by
  induction as with
  | nil => exact h'
  | cons a as ih =>
    rcases h with _ | _ | ⟨ha, rest⟩
    exact .skip ha (ih rest)

theorem append_some {b : β} (h : FirstOf A as (some b)) : FirstOf A (as ++ bs) (some b) := by
  obtain ⟨before, a, after, rfl, hb, ha⟩ := some_iff.mp h
  exact some_iff.mpr ⟨before, a, after ++ bs, by simp, hb, ha⟩

theorem append_inv (h : FirstOf A (as ++ bs) r) :
    (FirstOf A as none ∧ FirstOf A bs r) ∨ ∃ b, r = some b ∧ FirstOf A as (some b) := by
  induction as with
  | nil => exact .inl ⟨.nil, h⟩
  | cons a as ih =>
    rcases h with _ | ha | ⟨ha, rest⟩
    · exact .inr ⟨_, rfl, .found ha⟩
    · rcases ih rest with ⟨h1, h2⟩ | ⟨b, rfl, h1⟩
      · exact .inl ⟨.skip ha h1, h2⟩
      · exact .inr ⟨b, rfl, .skip ha h1⟩

theorem map_iff {f : γ → α} {cs : List γ} :
    FirstOf A (cs.map f) r ↔ FirstOf (fun c => A (f c)) cs r := by
  induction cs generalizing r with
  | nil => exact ⟨fun h => by cases h; exact .nil, fun h => by cases h; exact .nil⟩
  | cons c cs ih =>
    constructor
    · rintro (_ | h | ⟨h, rest⟩)
      · exact .found h
      · exact .skip h (ih.mp rest)
    · rintro (_ | h | ⟨h, rest⟩)
      · exact .found h
      · exact .skip h (ih.mpr rest)

/-- What is tried may itself say what trying it gives. -/
theorem map_apply_iff : FirstOf (fun P => P) (as.map A) r ↔ FirstOf A as r :=
  map_iff (A := fun P : Option β → Prop => P)

/-- What a success gives may be put in another form. -/
theorem map_result_iff {f : β → γ} {s : Option γ} :
    FirstOf (fun a s => ∃ r, A a r ∧ s = r.map f) as s ↔ ∃ r, FirstOf A as r ∧ s = r.map f := by
  constructor
  · intro h
    induction h with
    | nil => exact ⟨none, .nil, rfl⟩
    | found h =>
      obtain ⟨r, hr, hs⟩ := h
      cases r with
      | none => cases hs
      | some b => exact ⟨some b, .found hr, hs⟩
    | skip h _ ih =>
      obtain ⟨r, hr, hs⟩ := h
      obtain ⟨r', hr', hs'⟩ := ih
      cases r with
      | none => exact ⟨r', .skip hr hr', hs'⟩
      | some b => cases hs
  · rintro ⟨r, hr, rfl⟩
    induction hr with
    | nil => exact .nil
    | found h => exact .found ⟨_, h, rfl⟩
    | skip h _ ih => exact .skip ⟨_, h, rfl⟩ ih

theorem det (hA : ∀ a ∈ as, ∀ r s, A a r → A a s → r = s) (h : FirstOf A as r)
    (h' : FirstOf A as s) : r = s := by
  induction h with
  | nil => cases h'; rfl
  | found h =>
    rcases h' with _ | h' | ⟨h', -⟩
    · exact hA _ (by simp) _ _ h h'
    · cases hA _ (by simp) _ _ h h'
  | skip h rest ih =>
    rcases h' with _ | h' | ⟨h', rest'⟩
    · cases hA _ (by simp) _ _ h h'
    · exact ih (fun a ha => hA a (by simp [ha])) rest'

theorem findSome? (f : α → Option β) (as : List α) :
    FirstOf (fun a r => r = f a) as (as.findSome? f) := by
  induction as with
  | nil => exact .nil
  | cons a as ih =>
    cases h : f a with
    | none => simpa [h] using FirstOf.skip h.symm ih
    | some b => simpa [h] using FirstOf.found h.symm

theorem eq_findSome? {f : α → Option β} (h : FirstOf (fun a r => r = f a) as r) :
    r = as.findSome? f :=
  det (fun _ _ _ _ h h' => h.trans h'.symm) h (.findSome? f as)

/-- What is tried gives what is related to the answers of a function. -/
theorem rel_findSome? {R : β → γ → Prop} {f : α → Option γ}
    (h : FirstOf (fun a r => Option.Rel R r (f a)) as r) : Option.Rel R r (as.findSome? f) := by
  induction h with
  | nil => exact .none
  | @found a as b h =>
    obtain ⟨c, hc, hbc⟩ : ∃ c, f a = some c ∧ R b c := by
      generalize f a = s at h
      cases h with
      | some hbc => exact ⟨_, rfl, hbc⟩
    rw [List.findSome?_cons, hc]
    exact .some hbc
  | @skip a as r h rest ih =>
    have hnone : f a = none := by
      generalize f a = s at h
      cases h
      rfl
    rw [List.findSome?_cons, hnone]
    exact ih

/-- What cannot succeed may be left out. -/
theorem filter_iff {p : α → Bool} (hp : ∀ a ∈ as, p a = false → ∀ r, A a r ↔ r = none) :
    FirstOf A (as.filter p) r ↔ FirstOf A as r := by
  induction as generalizing r with
  | nil => rfl
  | cons a as ih =>
    replace ih := fun {r} => @ih r fun b hb => hp b (by simp [hb])
    cases ha : p a with
    | false =>
      rw [List.filter_cons_of_neg (by simp [ha]), ih]
      have hA := hp a (by simp) ha
      constructor
      · exact .skip ((hA none).mpr rfl)
      · rintro (_ | h | ⟨-, rest⟩)
        · cases (hA _).mp h
        · exact rest
    | true =>
      rw [List.filter_cons_of_pos ha]
      constructor
      · rintro (_ | h | ⟨h, rest⟩)
        · exact .found h
        · exact .skip h (ih.mp rest)
      · rintro (_ | h | ⟨h, rest⟩)
        · exact .found h
        · exact .skip h (ih.mpr rest)

end FirstOf

end PatternAutomata
