import PatternAutomata.Interner
import PatternAutomata.Nfa.Product

/-!
# Numbered states

The states of an automaton are numbered as they are discovered. The transitions of a state are
worked out when they are first asked for, and then kept.
-/

namespace PatternAutomata.Nfa

/-- The states discovered so far, each with its transitions. -/
structure States (n : Nfa) where
  table : Interner State
  outgoing : Array (Thunk (Except Bailout (List Transition)))
  outgoing_eq : ∀ (i : Nat) (s : State), table.get? i = some s →
    outgoing[i]?.map Thunk.get = some (n.transitions s)
  size_eq : outgoing.size = table.size
  size_le : table.size ≤ n.maxStates

namespace States

variable {n : Nfa}

def empty : States n :=
  ⟨.empty, #[], by simp [Interner.get?, Interner.empty], rfl, Nat.zero_le _⟩

instance : Inhabited (States n) := ⟨empty⟩

def size (t : States n) : Nat := t.table.size

def state? (t : States n) (i : Nat) : Option State := t.table.get? i

/-- Adds a state that has no number yet, if there may be another state. -/
def push : (t : States n) → (s : State) → t.table.find? s = none → t.size < n.maxStates → States n
  | ⟨table, outgoing, outgoing_eq, size_eq, size_le⟩, s, h, hsize =>
    ⟨table.push s h, outgoing.push (Thunk.mk fun _ => n.transitions s), by
      intro i s' hs'
      simp only [Interner.get?, Interner.items_push, Array.getElem?_push] at hs'
      rw [Array.getElem?_push, size_eq]
      simp only [Interner.size]
      split at hs' <;> rename_i hi
      · cases hs'
        simp [hi, Thunk.get]
      · simp only [hi, if_false]
        exact outgoing_eq i s' hs', by
      simp [Interner.size, size_eq], by
      rw [Interner.size, Interner.items_push, Array.size_push]
      exact hsize⟩

/-- The number of a state. A new state gets the next one, if there may be another state. -/
def intern (t : States n) (s : State) : Except Bailout Nat × States n :=
  match h : t.table.find? s with
  | some i => (.ok i, t)
  | none =>
    let next := t.size
    if hsize : next < n.maxStates then (.ok next, t.push s h hsize) else (.error tooLarge, t)

/-- The transitions of the state with number `i`. -/
def transitions (t : States n) (i : Nat) : Except Bailout (List Transition) :=
  match t.outgoing[i]? with
  | some later => later.get
  | none => .ok []

theorem transitions_eq {t : States n} {i : Nat} {s : State} (h : t.state? i = some s) :
    t.transitions i = n.transitions s := by
  have := t.outgoing_eq i s h
  unfold transitions
  split <;> simp_all

end States

/-- The state before anything is consumed. -/
def initial (n : Nfa) (context : Context) : State :=
  { main := n.tree.root, lookAheads := [], context }

end PatternAutomata.Nfa
