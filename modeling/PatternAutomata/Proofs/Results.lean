import Mathlib.Data.List.Forall2

/-!
# Computations that succeed

What a computation that may fail has done when it succeeds.
-/

namespace PatternAutomata

variable {ε α β : Type} {x : Except ε α} {b : β}

theorem exists_ok (h : x.isOk = true) : ∃ a, x = .ok a := by
  cases x with
  | error e => cases h
  | ok a => exact ⟨a, rfl⟩

/-- A property that can be checked of the result, if there is one, holds of the result. -/
theorem of_toOption {P : α → Prop} (h : ∀ a ∈ x.toOption, P a) {a : α} (ha : x = .ok a) : P a :=
  h a (by rw [ha]; rfl)

/-- An error that can be checked is the result. -/
theorem eq_error [DecidableEq ε] {e : ε} (h : (match x with
    | .ok _ => false
    | .error e' => decide (e' = e)) = true) : x = .error e := by
  cases x with
  | ok a => cases h
  | error e' => exact congrArg _ (of_decide_eq_true h)

theorem toOption_eq_some_iff {a : α} : x.toOption = some a ↔ x = .ok a := by
  cases x with
  | error e => exact ⟨nofun, nofun⟩
  | ok b => exact ⟨fun h => by cases h; rfl, fun h => by cases h; rfl⟩

/-- Both computations succeed, with results that `f` and `g` make equal, or neither does. -/
theorem toOption_map_eq {γ : Type} {y : Except ε β} {f : α → γ} {g : β → γ}
    (hok : (∃ a, x = .ok a) ↔ ∃ b, y = .ok b) (h : ∀ a b, x = .ok a → y = .ok b → f a = g b) :
    x.toOption.map f = y.toOption.map g := by
  rcases x with e | a
  · rcases y with e' | b
    · rfl
    · obtain ⟨a, ha⟩ := hok.mpr ⟨b, rfl⟩
      cases ha
  · obtain ⟨b, rfl⟩ := hok.mp ⟨a, rfl⟩
    exact congrArg some (h a b rfl rfl)

theorem bind_eq_ok {f : α → Except ε β} : x >>= f = .ok b ↔ ∃ a, x = .ok a ∧ f a = .ok b := by
  cases x with
  | error e =>
    constructor
    · intro h
      cases h
    · rintro ⟨a, h, -⟩
      cases h
  | ok a =>
    constructor
    · intro h
      exact ⟨a, rfl, h⟩
    · rintro ⟨_, h, h'⟩
      cases h
      exact h'

theorem bind_eq_error {f : α → Except ε β} {e : ε} :
    x >>= f = .error e ↔ x = .error e ∨ ∃ a, x = .ok a ∧ f a = .error e := by
  cases x with
  | error e' =>
    constructor
    · intro h
      cases h
      exact .inl rfl
    · rintro (h | ⟨a, ha, -⟩)
      · cases h
        rfl
      · cases ha
  | ok a =>
    constructor
    · exact fun h => .inr ⟨a, rfl, h⟩
    · rintro (h | ⟨_, ha, h⟩)
      · cases h
      · cases ha
        exact h

/-- What every step keeps holds in the end. -/
theorem foldlM_eq_ok {P : β → Prop} {f : β → α → Except ε β} {as : List α} {b' : β}
    (hf : ∀ b a b', P b → a ∈ as → f b a = .ok b' → P b') (hb : P b)
    (h : as.foldlM f b = .ok b') : P b' := by
  induction as generalizing b with
  | nil =>
    cases h
    exact hb
  | cons a as ih =>
    rw [List.foldlM_cons] at h
    obtain ⟨b1, h1, h2⟩ := bind_eq_ok.mp h
    exact ih (fun b a b' hb ha => hf b a b' hb (by simp [ha])) (hf b a b1 hb (by simp) h1) h2

/-- Steps that succeed one after the other also do if each of them may do more. -/
theorem foldlM_eq_ok_mono {f g : β → α → Except ε β} {as : List α} {b' : β}
    (hfg : ∀ b a b', a ∈ as → f b a = .ok b' → g b a = .ok b') (h : as.foldlM f b = .ok b') :
    as.foldlM g b = .ok b' := by
  induction as generalizing b with
  | nil => exact h
  | cons a as ih =>
    rw [List.foldlM_cons] at h ⊢
    obtain ⟨b1, h1, h⟩ := bind_eq_ok.mp h
    exact bind_eq_ok.mpr
      ⟨b1, hfg _ _ _ (by simp) h1, ih (fun b a b' ha => hfg b a b' (by simp [ha])) h⟩

/-- The results of one computation after the other. -/
theorem mapM_eq_ok {f : α → Except ε β} {as : List α} {bs : List β} (h : as.mapM f = .ok bs) :
    List.Forall₂ (fun a b => f a = .ok b) as bs := by
  induction as generalizing bs with
  | nil =>
    cases h
    exact .nil
  | cons a as ih =>
    rw [List.mapM_cons] at h
    obtain ⟨b, hb, h⟩ := bind_eq_ok.mp h
    obtain ⟨rest, hrest, h⟩ := bind_eq_ok.mp h
    cases h
    exact .cons hb (ih hrest)

/-- One computation after the other fails as the first one that fails. -/
theorem mapM_eq_error_iff {f : α → Except ε β} {as : List α} {e : ε} :
    as.mapM f = .error e ↔ ∃ before a after, as = before ++ a :: after ∧
      (∀ b ∈ before, ∃ v, f b = .ok v) ∧ f a = .error e := by
  induction as with
  | nil => exact ⟨nofun, by simp⟩
  | cons a as ih =>
    simp only [List.mapM_cons, bind_eq_error, ih]
    constructor
    · rintro (ha | ⟨v, hv, ⟨before, a', after, rfl, hbefore, ha'⟩ | ⟨_, _, h⟩⟩)
      · exact ⟨[], a, as, rfl, by simp, ha⟩
      · exact ⟨a :: before, a', after, rfl, List.forall_mem_cons.mpr ⟨⟨v, hv⟩, hbefore⟩, ha'⟩
      · cases h
    · rintro ⟨before, a', after, has, hbefore, ha'⟩
      cases before with
      | nil =>
        cases has
        exact .inl ha'
      | cons b before =>
        cases has
        obtain ⟨⟨v, hv⟩, hbefore⟩ := List.forall_mem_cons.mp hbefore
        exact .inr ⟨v, hv, .inl ⟨before, a', after, rfl, hbefore, ha'⟩⟩

theorem mapM_eq_some_iff {f : α → Option β} {as : List α} {bs : List β} :
    as.mapM f = some bs ↔ List.Forall₂ (fun a b => f a = some b) as bs := by
  induction as generalizing bs with
  | nil =>
    rw [List.mapM_nil, List.forall₂_nil_left_iff]
    exact ⟨fun h => by cases h; rfl, fun h => by rw [h]; rfl⟩
  | cons a as ih =>
    rw [List.mapM_cons, List.forall₂_cons_left_iff]
    simp only [Option.bind_eq_bind, Option.bind_eq_some_iff, ih]
    constructor
    · rintro ⟨b, hb, bs, hbs, h⟩
      cases h
      exact ⟨b, bs, hb, hbs, rfl⟩
    · rintro ⟨b, bs, hb, hbs, rfl⟩
      exact ⟨b, hb, bs, hbs, rfl⟩

theorem exists_of_mem_right {R : α → β → Prop} {l : List α} {m : List β}
    (h : List.Forall₂ R l m) {y : β} (hy : y ∈ m) : ∃ x ∈ l, R x y := by
  induction h with
  | nil => cases hy
  | cons hxy _ ih =>
    rcases List.mem_cons.mp hy with rfl | hy
    · exact ⟨_, by simp, hxy⟩
    · obtain ⟨x, hx, h⟩ := ih hy
      exact ⟨x, by simp [hx], h⟩

/-- What holds of later members holds of what they are mapped to. -/
theorem pairwise_of_forall₂ {R : α → β → Prop} {S : α → α → Prop} {T : β → β → Prop} {l : List α}
    {m : List β} (hST : ∀ x y z w, R x y → R z w → S x z → T y w) (h : List.Forall₂ R l m)
    (hl : l.Pairwise S) : m.Pairwise T := by
  induction h with
  | nil => exact .nil
  | cons hxy hlm ih =>
    obtain ⟨hhead, htail⟩ := List.pairwise_cons.mp hl
    refine List.pairwise_cons.mpr ⟨fun w hw => ?_, ih htail⟩
    obtain ⟨z, hz, hzw⟩ := exists_of_mem_right hlm hw
    exact hST _ _ _ _ hxy hzw (hhead z hz)

end PatternAutomata
