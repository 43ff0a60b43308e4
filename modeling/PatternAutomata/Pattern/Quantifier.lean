import PatternAutomata.Pattern.Escape
import PatternAutomata.Tree.Arena

/-!
# Quantifiers

A quantifier is read after an atom and then built away. Each iteration that must happen becomes an
instance of the atom. What may happen beyond that becomes a loop group, or, if it is bounded,
optional groups one inside the other. The first instance of the atom is the atom itself, the others
are copies.
-/

namespace PatternAutomata.Pattern

structure Quantifier where
  min : Nat
  max : Option Nat
  greedy : Bool

/-! ## Reading -/

/-- The least and the largest number of iterations, in braces. -/
def bounds? (cur : Cursor) : Option ((Nat × Option Nat) × Cursor) := do
  let (min, cur) ← (← cur.skip? "\x7b").numeral? 10
  match cur.skip? "," with
  | none => return ((min, some min), ← cur.skip? "\x7d")
  | some cur =>
    match cur.skip? "\x7d" with
    | some cur => return ((min, none), cur)
    | none =>
      let (max, cur) ← cur.numeral? 10
      return ((min, some max), ← cur.skip? "\x7d")

/-- The numbers of iterations that a quantifier stands for, if one comes next. -/
def iterations? (cur : Cursor) : Option ((Nat × Option Nat) × Cursor) :=
  match cur.peek? with
  | some '*' => some ((0, none), cur.drop 1)
  | some '+' => some ((1, none), cur.drop 1)
  | some '?' => some ((0, some 1), cur.drop 1)
  | some '\x7b' => bounds? cur
  | _ => none

/-- Whether the bounds count more iterations than the budget allows, on a quantifier in braces. -/
def exceedsCount (s : Settings) (cur : Cursor) (min : Nat) (max : Option Nat) : Bool :=
  cur.peek? = some '\x7b' && s.maxCountedRepetition < max.getD min

/-- The quantifier that comes next, if any, and the cursor after it. -/
def quantifier (s : Settings) (cur : Cursor) :
    Except CompileError (Option Quantifier × Cursor) :=
  match iterations? cur with
  | none =>
    if s.unicode ∧ cur.peek? = some '\x7b' then
      .error (.malformed ⟨cur.pos, .incompleteQuantifier⟩)
    else .ok (none, cur)
  | some ((min, max), after) =>
    if max.any (· < min) then .error (.malformed ⟨cur.pos, .invalidQuantifierRange⟩)
    else if exceedsCount s cur min max then
      .error (.bailout (Stage.parse.exceeded .countedRepetition))
    else match after.skip? "?" with
      | some after => .ok (some ⟨min, max, false⟩, after)
      | none => .ok (some ⟨min, max, true⟩, after)

/-! ## Building -/

/-- The atom itself if it has not been used yet, otherwise a copy of it. -/
def instanceOf (atom : NodeId) (used : Bool) : Grow NodeId :=
  if used then Grow.copy atom else pure atom

/-- A group that runs `terms` or nothing, whichever is preferred first. -/
def optional (terms : List NodeId) (greedy : Bool) (role : GroupRole) (innerStart innerEnd : Nat) :
    Grow NodeId := do
  let body ← Grow.sequence terms
  let empty ← Grow.sequence []
  let alternatives := if greedy then [body, empty] else [empty, body]
  Grow.add (.group { alternatives, role, innerStart, innerEnd })

/-- `n` iterations that must happen. Iterations of an atom that holds captures are groups, because
each of them resets these captures. -/
def mandatory (atom : NodeId) (innerStart innerEnd : Nat) : Nat → Bool → Grow (List NodeId)
  | 0, _ => pure []
  | n + 1, used => do
    let iteration ← instanceOf atom used
    let term ←
      if innerStart < innerEnd then do
        let body ← Grow.sequence [iteration]
        Grow.add (.group { alternatives := [body], role := .unrolled, innerStart, innerEnd })
      else pure iteration
    return term :: (← mandatory atom innerStart innerEnd n true)

/-- `n` instances of the atom. -/
def instances (atom : NodeId) : Nat → Bool → Grow (List NodeId)
  | 0, _ => pure []
  | n + 1, used => do
    let iteration ← instanceOf atom used
    return iteration :: (← instances atom n true)

/-- Optional iterations, each inside the one before it. -/
def nested (bodies : List NodeId) (greedy : Bool) (innerStart innerEnd : Nat) :
    Grow (List NodeId) :=
  bodies.foldrM (fun body inner => do
    return [← optional (body :: inner) greedy .unrolled innerStart innerEnd]) []

/-- The terms that `atom` under a quantifier stands for. The capture groups in the atom are those
from `innerStart` to before `innerEnd`. -/
def quantify (q : Quantifier) (atom : NodeId) (innerStart innerEnd : Nat) :
    Grow (List NodeId) := do
  let needed ← mandatory atom innerStart innerEnd q.min false
  let used := 0 < q.min
  match q.max with
  | none =>
    let body ← instanceOf atom used
    return needed ++ [← optional [body] q.greedy .loop innerStart innerEnd]
  | some max =>
    let bodies ← instances atom (max - q.min) used
    return needed ++ (← nested bodies q.greedy innerStart innerEnd)

end PatternAutomata.Pattern
