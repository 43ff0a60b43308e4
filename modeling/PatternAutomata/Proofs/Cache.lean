import Mathlib.Data.List.Dedup
import Mathlib.Data.List.DropRight
import PatternAutomata.Cache

/-!
# What the cache remembers

After any requests the cache holds the patterns that were asked for last, as many as its capacity
allows, in the order of their last use. A pattern that is still there is answered with the compilation
that answered it the last time. Any other is compiled anew, and no earlier answer has the number of
the new compilation.
-/

namespace PatternAutomata

/-! ## The last of a list without repetitions -/

section Recent

variable {α : Type} {a : α} {n : Nat}

theorem rtake_append_of_le {l l' : List α} (h : n ≤ l'.length) : (l ++ l').rtake n = l'.rtake n := by
  unfold List.rtake
  rw [List.length_append, Nat.add_sub_assoc h, List.drop_append, Nat.add_sub_cancel_left,
    List.drop_eq_nil_of_le (Nat.le_add_right ..), List.nil_append]

variable [DecidableEq α]

theorem dedup_concat (l : List α) (a : α) : (l ++ [a]).dedup = l.dedup.filter (· ≠ a) ++ [a] := by
  induction l with
  | nil => rfl
  | cons b l ih =>
    rw [List.cons_append]
    by_cases hb : b ∈ l
    · rw [List.dedup_cons_of_mem (List.mem_append_left _ hb), List.dedup_cons_of_mem hb, ih]
    · rw [List.dedup_cons_of_notMem hb, List.filter_cons]
      by_cases hba : b = a
      · subst hba
        rw [List.dedup_cons_of_mem (List.mem_append_right _ (List.mem_singleton_self b)), ih]
        simp
      · rw [List.dedup_cons_of_notMem (by simp [hb, hba]), ih]
        simp [hba]

theorem length_le_filter_ne {l : List α} (h : l.Nodup) (a : α) : l.length ≤ (l.filter (· ≠ a)).length + 1 := by
  have hcount : l.count a ≤ 1 := List.nodup_iff_count_le_one.mp h a
  have hlength := l.length_eq_countP_add_countP (· == a)
  rw [← List.count, List.countP_eq_length_filter] at hlength
  have hfilter : l.filter (fun x => decide ¬(x == a) = true) = l.filter (· ≠ a) := by simp
  rw [hfilter] at hlength
  omega

/-- It is enough to know the last `n` distinct members in order to know them after one more. -/
theorem rtake_dedup_concat (l : List α) (a : α) (n : Nat) :
    ((l.dedup.rtake n).filter (· ≠ a) ++ [a]).rtake n = (l ++ [a]).dedup.rtake n := by
  rw [dedup_concat]
  by_cases hn : l.dedup.length ≤ n
  · rw [show l.dedup.rtake n = l.dedup by simp [List.rtake, Nat.sub_eq_zero_of_le hn]]
  · obtain ⟨before, hbefore⟩ : ∃ before, before ++ l.dedup.rtake n = l.dedup :=
      ⟨_, List.take_append_drop _ _⟩
    have hlength : (l.dedup.rtake n).length = n := by
      rw [List.rtake, List.length_drop]
      omega
    have hnodup : (l.dedup.rtake n).Nodup := (List.nodup_dedup l).sublist (List.drop_sublist _ _)
    have hle := length_le_filter_ne hnodup a
    conv_rhs => rw [← hbefore, List.filter_append, List.append_assoc]
    refine (rtake_append_of_le ?_).symm
    rw [List.length_append, List.length_singleton]
    omega

omit [DecidableEq α] in
/-- A member of a list without repetitions is one of the last `n` if fewer than `n` come after it. -/
theorem mem_rtake_iff {before after : List α} (h : (before ++ a :: after).Nodup) :
    a ∈ (before ++ a :: after).rtake n ↔ after.length < n := by
  obtain ⟨-, -, hdisjoint⟩ := List.nodup_append.mp h
  constructor
  · intro hmem
    by_contra hle
    rw [List.append_cons, rtake_append_of_le (Nat.le_of_not_lt hle)] at hmem
    have := (List.nodup_append.mp h).2.1
    exact (List.nodup_cons.mp this).1 (List.mem_of_mem_drop hmem)
  · intro hlt
    rw [List.rtake, List.drop_append]
    refine List.mem_append_right _ ?_
    rw [show (before ++ a :: after).length - n - before.length = 0 by
      rw [List.length_append, List.length_cons]; omega]
    exact List.mem_cons_self

end Recent

namespace PatternCache

/-- A pattern with its flags. -/
abbrev Key := String × Flags

inductive Request where
  | get (key : Key)
  | clear
deriving DecidableEq

namespace Request

def key? : Request → Option Key
  | get key => some key
  | clear => none

end Request

/-- The keys of the requests. -/
def keys (requests : List Request) : List Key := requests.filterMap Request.key?

/-- The keys asked for since the cache was last cleared. -/
def asked (history : List Request) : List Key := keys (history.rtakeWhile (· ≠ .clear))

/-- What comes of asking for a key. -/
def answer (c : PatternCache) (key : Key) : Compilation := (c.get key.1 key.2).1

def serve (c : PatternCache) : Request → PatternCache
  | .get key => (c.get key.1 key.2).2
  | .clear => c.clear

/-- The cache after the requests. -/
def run (c : PatternCache) (history : List Request) : PatternCache := history.foldl serve c

/-- The keys in the cache. -/
def held (c : PatternCache) : List Key := c.entries.map Prod.fst

theorem run_concat (c : PatternCache) (history : List Request) (r : Request) :
    c.run (history ++ [r]) = (c.run history).serve r := by
  rw [run, List.foldl_append]
  rfl

theorem asked_get (history : List Request) (key : Key) :
    asked (history ++ [.get key]) = asked history ++ [key] := by
  rw [asked, List.rtakeWhile_concat_pos _ _ _ (by simp), keys, List.filterMap_append]
  rfl

theorem asked_clear (history : List Request) : asked (history ++ [.clear]) = [] := by
  rw [asked, List.rtakeWhile_concat_neg _ _ _ (by simp)]
  rfl

/-! ## One request -/

variable {c : PatternCache} {key : Key}

/-- The entries of the other keys. -/
def others (c : PatternCache) (key : Key) : List (Key × Compilation) :=
  c.entries.filter (·.1 != key)

/-- A request finds the compilation of its key, which comes last then, or makes a new one. -/
theorem get_cases (c : PatternCache) (key : Key) :
    (∃ found, (key, found) ∈ c.entries ∧ c.answer key = found ∧
      c.serve (.get key) = { c with
        entries := fit c.capacity 0 (c.others key ++ [(key, found)]) }) ∨
    (key ∉ c.held ∧
      c.answer key = ⟨c.compilations, compile key.1 key.2 c.budget Property.standard⟩ ∧
      c.serve (.get key) = { c with
        entries := fit c.capacity 1 (c.others key) ++ [(key, c.answer key)]
        compilations := c.compilations + 1 }) := by
  simp only [answer, serve, get, others]
  cases hfound : c.entries.lookup key with
  | some found =>
    refine .inl ⟨found, ?_, rfl, rfl⟩
    obtain ⟨before, after, heq, -⟩ := List.lookup_eq_some_iff.mp hfound
    rw [heq]
    exact List.mem_append_right _ List.mem_cons_self
  | none =>
    refine .inr ⟨fun hmem => ?_, rfl, rfl⟩
    obtain ⟨⟨key', found⟩, hentry, rfl⟩ := List.mem_map.mp hmem
    exact absurd (List.lookup_eq_none_iff.mp hfound _ hentry) (by simp)

theorem capacity_serve (c : PatternCache) (r : Request) : (c.serve r).capacity = c.capacity := by
  cases r with
  | clear => rfl
  | get key => obtain ⟨_, -, -, h⟩ | ⟨-, -, h⟩ := get_cases c key <;> rw [h]

theorem budget_serve (c : PatternCache) (r : Request) : (c.serve r).budget = c.budget := by
  cases r with
  | clear => rfl
  | get key => obtain ⟨_, -, -, h⟩ | ⟨-, -, h⟩ := get_cases c key <;> rw [h]

theorem compilations_le_serve (c : PatternCache) (r : Request) :
    c.compilations ≤ (c.serve r).compilations := by
  cases r with
  | clear => exact Nat.le_refl _
  | get key =>
    obtain ⟨_, -, -, h⟩ | ⟨-, -, h⟩ := get_cases c key <;> rw [h]
    exact Nat.le_succ _

/-- What is kept of the entries, and what was asked for just now. -/
theorem mem_entries_serve {e : Key × Compilation} (h : e ∈ (c.serve (.get key)).entries) :
    e ∈ c.entries ∧ e.1 ≠ key ∨ e = (key, c.answer key) := by
  have hothers : ∀ e ∈ c.others key, e ∈ c.entries ∧ e.1 ≠ key := fun e he =>
    (List.mem_filter.mp he).imp_right bne_iff_ne.mp
  obtain ⟨found, -, hanswer, hserve⟩ | ⟨-, -, hserve⟩ := get_cases c key
  · rw [hserve] at h
    rw [hanswer]
    exact (List.mem_append.mp (List.mem_of_mem_drop h)).imp (hothers e) List.mem_singleton.mp
  · rw [hserve] at h
    exact (List.mem_append.mp h).imp (fun h => hothers e (List.mem_of_mem_drop h))
      List.mem_singleton.mp

/-- The key that is asked for comes last, and keys too many go first. -/
theorem held_serve (hcapacity : 1 ≤ c.capacity) (key : Key) :
    (c.serve (.get key)).held = (c.held.filter (· ≠ key) ++ [key]).rtake c.capacity := by
  have hothers : (c.others key).map Prod.fst = c.held.filter (· ≠ key) := by
    rw [others, held, List.filter_map]
    exact congrArg _ (List.filter_congr fun e _ => by
      simp only [Function.comp_apply, bne, beq_eq_decide, decide_not])
  unfold held at hothers ⊢
  obtain ⟨found, -, -, hserve⟩ | ⟨-, -, hserve⟩ := get_cases c key
  · rw [hserve, ← hothers]
    simp [fit, List.rtake, List.map_drop]
  · rw [hserve, ← hothers, List.rtake, List.drop_append]
    have hkeep : (c.others key).length + 1 - c.capacity - (c.others key).length = 0 := by omega
    simp [fit, List.map_drop, hkeep]

/-! ## Entries -/

/-- The compilations in the cache are what comes of compiling, and have been numbered. -/
def Valid (c : PatternCache) : Prop :=
  ∀ e ∈ c.entries, e.2.number < c.compilations ∧
    e.2.result = compile e.1.1 e.1.2 c.budget Property.standard

theorem Valid.answer (h : c.Valid) (key : Key) :
    (c.answer key).result = compile key.1 key.2 c.budget Property.standard ∧
      (c.answer key).number < (c.serve (.get key)).compilations := by
  obtain ⟨found, hfound, hanswer, hserve⟩ | ⟨-, hanswer, hserve⟩ := get_cases c key
  · rw [hanswer, hserve]
    exact (h _ hfound).symm
  · rw [hserve, hanswer]
    exact ⟨rfl, Nat.lt_succ_self _⟩

theorem Valid.serve (h : c.Valid) (r : Request) : (c.serve r).Valid := by
  cases r with
  | clear => exact fun e he => absurd he List.not_mem_nil
  | get key =>
    intro e he
    rw [budget_serve]
    rcases mem_entries_serve he with ⟨he, -⟩ | rfl
    · exact ⟨Nat.lt_of_lt_of_le (h e he).1 (compilations_le_serve ..), (h e he).2⟩
    · exact (h.answer key).symm

/-! ## Many requests -/

/-- The key was asked for after `before`, and not again since then. -/
structure LastUse (key : Key) (before between history : List Request) : Prop where
  history_eq : history = before ++ .get key :: between
  not_mem : .get key ∉ between

/-- Since then the cache was not cleared, and fewer other keys than it holds were asked for. -/
def Recent (capacity : Nat) (between : List Request) : Prop :=
  .clear ∉ between ∧ (keys between).dedup.length < capacity

instance (capacity : Nat) (between : List Request) : Decidable (Recent capacity between) :=
  inferInstanceAs (Decidable (_ ∧ _))

variable {before between history : List Request} {capacity : Nat}

theorem asked_append (h : .clear ∉ between) :
    asked (history ++ between) = asked history ++ keys between := by
  induction between using List.reverseRecOn with
  | nil => rw [List.append_nil, keys, List.filterMap_nil, List.append_nil]
  | append_singleton between r ih =>
    simp only [List.mem_append, List.mem_singleton, not_or] at h
    cases r with
    | clear => exact absurd rfl h.2
    | get key =>
      rw [← List.append_assoc, asked_get, ih h.1, List.append_assoc, keys, keys,
        List.filterMap_append]
      rfl

/-- A key that has not been asked for again is still among those asked for only if the cache has not
been cleared. -/
theorem not_mem_of_mem_asked (hkey : .get key ∉ between)
    (h : key ∈ asked (history ++ between)) : .clear ∉ between := by
  induction between using List.reverseRecOn with
  | nil => exact List.not_mem_nil
  | append_singleton between r ih =>
    simp only [List.mem_append, List.mem_singleton, not_or] at hkey
    rw [← List.append_assoc] at h
    cases r with
    | clear =>
      rw [asked_clear] at h
      cases h
    | get key' =>
      rw [asked_get, List.mem_append, List.mem_singleton] at h
      obtain h | rfl := h
      · simpa using ih hkey.1 h
      · exact absurd rfl hkey.2

theorem mem_keys : key ∈ keys between ↔ .get key ∈ between := by
  unfold keys
  rw [List.mem_filterMap]
  constructor
  · rintro ⟨r, hr, hkey⟩
    cases r with
    | clear => cases hkey
    | get key' =>
      cases hkey
      exact hr
  · exact fun h => ⟨_, h, rfl⟩

/-- Of the keys asked for, the last ones are those that were asked for recently. -/
theorem LastUse.mem_rtake_iff (h : LastUse key before between history) :
    key ∈ (asked history).dedup.rtake capacity ↔ Recent capacity between := by
  obtain ⟨rfl, hkey⟩ := h
  by_cases hmem : Request.clear ∈ between
  · refine iff_of_false (fun h => ?_) fun h => h.1 hmem
    have h := List.mem_dedup.mp (List.mem_of_mem_drop h)
    rw [List.append_cons] at h
    exact not_mem_of_mem_asked hkey h hmem
  · have hkey' : key ∉ keys between := fun h => hkey (mem_keys.mp h)
    have hasked : asked (before ++ .get key :: between) = asked before ++ key :: keys between :=
      asked_append (by simp [hmem])
    obtain ⟨first, hfirst⟩ := List.suffix_union_right (asked before) (key :: keys between).dedup
    rw [← List.dedup_append, ← hasked, List.dedup_cons_of_notMem hkey'] at hfirst
    rw [← hfirst, PatternAutomata.mem_rtake_iff (hfirst ▸ List.nodup_dedup _), Recent]
    exact (and_iff_right hmem).symm

section New

variable {budget : Budget}

theorem run_new (capacity : Nat) (budget : Budget) (history : List Request) :
    ((new capacity budget).run history).capacity = capacity ∧
      ((new capacity budget).run history).budget = budget ∧
      ((new capacity budget).run history).Valid := by
  induction history using List.reverseRecOn with
  | nil => exact ⟨rfl, rfl, fun e he => absurd he List.not_mem_nil⟩
  | append_singleton history r ih =>
    rw [run_concat]
    exact ⟨(capacity_serve ..).trans ih.1, (budget_serve ..).trans ih.2.1, ih.2.2.serve r⟩

/-- The cache holds the keys that were asked for last, in the order of their last use. -/
theorem held_run (hcapacity : 1 ≤ capacity) (history : List Request) :
    ((new capacity budget).run history).held = (asked history).dedup.rtake capacity := by
  induction history using List.reverseRecOn with
  | nil => simp [run, new, held, asked, keys]
  | append_singleton history r ih =>
    rw [run_concat]
    cases r with
    | clear =>
      rw [asked_clear, List.dedup_nil, List.rtake_nil]
      rfl
    | get key =>
      have hcap := (run_new capacity budget history).1
      rw [held_serve (hcap.symm ▸ hcapacity), hcap, ih, asked_get, rtake_dedup_concat]

/-- An entry holds the answer to the last request for its key. -/
theorem entries_run {e : Key × Compilation} (history : List Request)
    (he : e ∈ ((new capacity budget).run history).entries) :
    ∃ before between, LastUse e.1 before between history ∧
      e.2 = ((new capacity budget).run before).answer e.1 := by
  induction history using List.reverseRecOn with
  | nil => exact absurd he List.not_mem_nil
  | append_singleton history r ih =>
    rw [run_concat] at he
    cases r with
    | clear => exact absurd he List.not_mem_nil
    | get key =>
      rcases mem_entries_serve he with ⟨he, hne⟩ | rfl
      · obtain ⟨before, between, ⟨rfl, hnot⟩, hanswer⟩ := ih he
        refine ⟨before, between ++ [.get key], ⟨by simp, ?_⟩, hanswer⟩
        simpa [hnot] using hne
      · exact ⟨history, [], ⟨rfl, List.not_mem_nil⟩, rfl⟩

/-- There is only one last use. -/
theorem LastUse.unique {before' between' : List Request} (h : LastUse key before between history)
    (h' : LastUse key before' between' history) : before = before' ∧ between = between' := by
  obtain ⟨heq, hnot⟩ := h
  obtain ⟨heq', hnot'⟩ := h'
  rw [heq] at heq'
  rcases List.append_eq_append_iff.mp heq' with ⟨more, rfl, hmore⟩ | ⟨more, rfl, hmore⟩
  all_goals
    cases more with
    | nil => simpa [eq_comm] using hmore
    | cons r more =>
      rw [List.cons_append] at hmore
      injection hmore with _ hmore
      simp [hmore] at hnot hnot'

/-- A pattern that was used recently is answered as it was the last time. -/
theorem answer_of_recent (hcapacity : 1 ≤ capacity) (h : LastUse key before between history)
    (hrecent : Recent capacity between) :
    ((new capacity budget).run history).answer key =
      ((new capacity budget).run before).answer key := by
  have hheld : key ∈ ((new capacity budget).run history).held := by
    rw [held_run hcapacity]
    exact h.mem_rtake_iff.mpr hrecent
  obtain ⟨found, hfound, hanswer, -⟩ | ⟨hnot, -, -⟩ :=
    get_cases ((new capacity budget).run history) key
  · obtain ⟨before', between', hlast, heq⟩ := entries_run history hfound
    obtain ⟨rfl, -⟩ := h.unique hlast
    exact hanswer.trans heq
  · exact absurd hheld hnot

/-- The numbers of all answers so far are below the number of compilations so far. -/
theorem number_lt (history : List Request) {key' : Key}
    (h : history = before ++ .get key' :: between) :
    (((new capacity budget).run before).answer key').number <
      ((new capacity budget).run history).compilations := by
  induction between using List.reverseRecOn generalizing history with
  | nil =>
    rw [h, run_concat]
    exact ((run_new capacity budget before).2.2.answer key').2
  | append_singleton between r ih =>
    rw [h, ← List.cons_append, ← List.append_assoc, run_concat]
    exact Nat.lt_of_lt_of_le (ih _ rfl) (compilations_le_serve ..)

/-- Any other pattern is compiled anew. -/
theorem number_of_not_recent (hcapacity : 1 ≤ capacity) {history : List Request}
    (hnot : ∀ before between, LastUse key before between history → ¬Recent capacity between) :
    (((new capacity budget).run history).answer key).number =
      ((new capacity budget).run history).compilations := by
  obtain ⟨found, hfound, -, -⟩ | ⟨-, hanswer, -⟩ :=
    get_cases ((new capacity budget).run history) key
  · obtain ⟨before, between, hlast, -⟩ := entries_run history hfound
    have hheld : key ∈ ((new capacity budget).run history).held :=
      List.mem_map.mpr ⟨_, hfound, rfl⟩
    rw [held_run hcapacity] at hheld
    exact absurd (hlast.mem_rtake_iff.mp hheld) (hnot before between hlast)
  · rw [hanswer]

end New

end PatternCache

end PatternAutomata
