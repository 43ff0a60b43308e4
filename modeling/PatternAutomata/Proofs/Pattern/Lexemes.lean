import PatternAutomata.Pattern.Reader

/-!
# What counts in a pattern

How deep groups stand one inside the other, and how often quantifiers in braces repeat, can be told
from the text. `lexemes` lists what counts, in the order of the text: the parentheses outside of atoms,
and the numbers in braces. No limit and no tree has to do with that.
-/

namespace PatternAutomata

/-- A part of a pattern that counts for a limit. -/
inductive Lexeme where
  /-- What opens a group or a look-around. -/
  | opening
  | closing
  /-- Braces that repeat at most `n` times, or at least `n` times without an end. -/
  | counted (n : Nat)
deriving DecidableEq

namespace Lexeme

/-- The number of groups that are open in the end, if `depth` are open before. -/
def openAfter : Nat → List Lexeme → Nat
  | depth, [] => depth
  | depth, opening :: ls => openAfter (depth + 1) ls
  | depth, closing :: ls => openAfter (depth - 1) ls
  | depth, counted _ :: ls => openAfter depth ls

/-- The largest number of groups that are open at once, if `depth` are open before. -/
def deepest : Nat → List Lexeme → Nat
  | depth, [] => depth
  | depth, opening :: ls => deepest (depth + 1) ls
  | depth, closing :: ls => max depth (deepest (depth - 1) ls)
  | depth, counted _ :: ls => deepest depth ls

/-- The largest number in braces. -/
def mostCounted : List Lexeme → Nat
  | [] => 0
  | counted n :: ls => max n (mostCounted ls)
  | _ :: ls => mostCounted ls

section Counts

variable (depth : Nat) (ls ls' : List Lexeme)

theorem openAfter_append :
    openAfter depth (ls ++ ls') = openAfter (openAfter depth ls) ls' := by
  induction ls generalizing depth with
  | nil => rfl
  | cons l ls ih => cases l <;> exact ih _

theorem le_deepest : depth ≤ deepest depth ls := by
  induction ls generalizing depth with
  | nil => exact Nat.le_refl _
  | cons l ls ih =>
    cases l with
    | opening => exact Nat.le_of_succ_le (ih (depth + 1))
    | closing => exact Nat.le_max_left ..
    | counted n => exact ih depth

theorem openAfter_le_deepest : openAfter depth ls ≤ deepest depth ls := by
  induction ls generalizing depth with
  | nil => exact Nat.le_refl _
  | cons l ls ih =>
    cases l with
    | opening => exact ih _
    | closing => exact Nat.le_trans (ih _) (Nat.le_max_right ..)
    | counted n => exact ih _

theorem deepest_append :
    deepest depth (ls ++ ls') = max (deepest depth ls) (deepest (openAfter depth ls) ls') := by
  induction ls generalizing depth with
  | nil => exact (Nat.max_eq_right (le_deepest depth ls')).symm
  | cons l ls ih =>
    cases l with
    | opening => exact ih _
    | closing =>
      simp only [List.cons_append, deepest, openAfter, ih, Nat.max_assoc]
    | counted n => exact ih _

theorem mostCounted_append : mostCounted (ls ++ ls') = max (mostCounted ls) (mostCounted ls') := by
  induction ls with
  | nil => exact (Nat.zero_max _).symm
  | cons l ls ih =>
    cases l with
    | opening => exact ih
    | closing => exact ih
    | counted n => simp only [List.cons_append, mostCounted, ih, Nat.max_assoc]

theorem mostCounted_le_iff {m : Nat} : mostCounted ls ≤ m ↔ ∀ n, counted n ∈ ls → n ≤ m := by
  induction ls with
  | nil => simp [mostCounted]
  | cons l ls ih =>
    cases l with
    | opening => simp [mostCounted, ih]
    | closing => simp [mostCounted, ih]
    | counted n => simp only [mostCounted, Nat.max_le, ih, List.mem_cons, counted.injEq, forall_eq_or_imp]

end Counts

end Lexeme

namespace Pattern

/-! ## Reading them -/

/-- Only quantifiers in braces count. -/
def countedLexemes (cur : Cursor) (n : Nat) : List Lexeme :=
  if cur.peek? = some '\x7b' then [.counted n] else []

/-- The quantifier that comes next, if any, and the cursor after it. -/
def quantifierLexemes (cur : Cursor) : List Lexeme × Cursor :=
  match iterations? cur with
  | none => ([], cur)
  | some ((min, max), after) =>
    (countedLexemes cur (max.getD min), (after.skip? "?").getD after)

theorem deepest_quantifierLexemes (depth : Nat) (cur : Cursor) :
    Lexeme.deepest depth (quantifierLexemes cur).1 = depth ∧
      Lexeme.openAfter depth (quantifierLexemes cur).1 = depth := by
  unfold quantifierLexemes countedLexemes
  split
  · exact ⟨rfl, rfl⟩
  · dsimp only
    split
    · exact ⟨rfl, rfl⟩
    · exact ⟨rfl, rfl⟩

/-- The cursor after the parenthesis that comes next and what tells the kind of group. -/
def afterOpening? (cur : Cursor) : Option Cursor :=
  let cur := cur.drop 1
  match cur.rest with
  | '?' :: '=' :: _ => some (cur.drop 2)
  | '?' :: '!' :: _ => some (cur.drop 2)
  | '?' :: '<' :: '=' :: _ => some (cur.drop 3)
  | '?' :: '<' :: '!' :: _ => some (cur.drop 3)
  | '?' :: ':' :: _ => some (cur.drop 2)
  | '?' :: '<' :: _ => (groupName (cur.drop 2)).toOption.map Prod.snd
  | '?' :: _ => none
  | _ => some cur

/-- What counts of a parenthesis, a bar or an atom that comes next and begins with `c`, together with
the quantifier after it, and the cursor after that. -/
def lexemesAt? (s : Settings) (c : Char) (cur : Cursor) : Option (List Lexeme × Cursor) :=
  match c with
  | '|' => some ([], cur.drop 1)
  | '(' => (afterOpening? cur).map fun after => ([.opening], after)
  | ')' =>
    let (ls, after) := quantifierLexemes (cur.drop 1)
    some (.closing :: ls, after)
  | c => (atom s c cur).toOption.map fun found => quantifierLexemes found.2

/-- What counts from a place on, up to the end or the first fault, in `fuel` parts at most. -/
def lexemesFrom (s : Settings) : Nat → Cursor → List Lexeme
  | 0, _ => []
  | fuel + 1, cur =>
    match cur.peek?.bind fun c => lexemesAt? s c cur with
    | none => []
    | some (ls, after) => ls ++ lexemesFrom s fuel after

/-- What counts in a pattern. -/
def lexemes (pattern : String) (flags : Flags) (properties : PropertyLookup) : List Lexeme :=
  lexemesFrom (.new flags {} properties (declaredGroups pattern.toList)) pattern.toList.length
    (.ofString pattern)

example : lexemes "((?=a)[(]b\x7b2,\x7d)\x7b3\x7d" {} Property.standard =
    [.opening, .opening, .closing, .counted 2, .closing, .counted 3] := by cbv

end Pattern

end PatternAutomata
