import PatternAutomata.Budget
import PatternAutomata.Dfa.Intervals
import PatternAutomata.Nfa.States

/-!
# Building a deterministic automaton

The states of the deterministic automaton are numbered as they are discovered, from lists of
threads. A search starts with the initial thread. Unless matches must begin where the search
starts, the initial thread is added again, as the last choice, after every character until a thread
has matched. A thread that matches drops all threads after it.

With traces, the captures of a thread are part of it, as distances back.
-/

namespace PatternAutomata.Dfa

/-- One way in which a match is being found. -/
structure Thread where
  /-- The number of a state of the nondeterministic automaton. -/
  state : Nat
  /-- The captures, with traces. -/
  captures : RelativeCaptures
deriving DecidableEq

instance : Coded Thread := ⟨fun t => Coded.mix t.state (Coded.code t.captures)⟩

/-- What a state stands for. -/
inductive Key where
  | dead
  /-- Characters are read before the search starts. -/
  | lead (tracker : BitSet)
  /-- The threads, the preferred one first; `injecting` holds if further ones may begin. -/
  | search (threads : List Thread) (injecting : Bool) (tracker : BitSet)
deriving DecidableEq, Inhabited

instance : Coded Key := ⟨fun
  | .dead => 0
  | .lead tracker => Coded.code tracker
  | .search threads injecting tracker =>
    Coded.mix (Coded.code threads) (Coded.mix (Coded.code tracker) injecting.toNat)⟩

/-- What the construction depends on besides the nondeterministic automaton. -/
structure Plan where
  sticky : Bool
  /-- The stage that is named when a limit is exceeded. -/
  stage : Stage
  maxStates : Nat
  maxThreads : Nat

/-- What has been discovered. -/
structure Discovered (n : Nfa) where
  states : Nfa.States n
  keys : Interner Key
  boundaries : Interner Boundaries
  tracer : Option TraceFinder
deriving Inhabited

/-- A part of the construction. What it has discovered remains when it fails. -/
abbrev Build (n : Nfa) := ExceptT Bailout (StateM (Discovered n))

namespace Build

variable {n : Nfa}

/-! ## Numbering -/

/-- The number of a state of the nondeterministic automaton. -/
def internState (s : Nfa.State) : Build n Nat := fun
  | { states, keys, boundaries, tracer } =>
    let (result, states) := states.intern s
    (result, { states, keys, boundaries, tracer })

/-- The number of the state for a key. -/
def internKey (p : Plan) (k : Key) : Build n StateId := fun
  | { states, keys, boundaries, tracer } =>
    match keys.find? k with
    | some i => (.ok i, { states, keys, boundaries, tracer })
    | none =>
      if keys.size < p.maxStates then
        let (keys, i) := keys.intern k
        (.ok i, { states, keys, boundaries, tracer })
      else (.error (p.stage.exceeded .dfaSize), { states, keys, boundaries, tracer })

def internBoundaries (b : Boundaries) : Build n Nat := fun
  | { states, keys, boundaries, tracer } =>
    let (boundaries, i) := boundaries.intern b
    (.ok i, { states, keys, boundaries, tracer })

/-- The number of the boundaries that change nothing. -/
def noBoundaries : Nat := 0

def internResult (finder : TraceFinder) (captures : RelativeCaptures) (b : Boundaries) :
    Build n Nat := fun d =>
  match finder.result captures b with
  | .ok (finder, i) => (.ok i, { d with tracer := some finder })
  | .error e => (.error e, d)

/-! ## Threads -/

/-- The captures of a thread that begins. -/
def freshCaptures : Build n RelativeCaptures := do
  return (← get).tracer.elim #[] TraceFinder.fresh

def initialThread (context : Context) : Build n Thread := do
  return { state := ← internState (n.initial context), captures := ← freshCaptures }

/-- The state in which a search starts. -/
def root (p : Plan) (tracker : BitSet) (atStart : Bool) : Build n StateId := do
  let context := { atStart, satisfied := n.lookBehinds.satisfied tracker }
  internKey p (.search [← initialThread context] (!p.sticky) tracker)

/-- How the match of a thread is reported. -/
def accept (slot : Nat) (t : Thread) (b : Boundaries) : Build n Accept := do
  match (← get).tracer with
  | some finder => return .result (← internResult finder t.captures b)
  | none => return .slot slot (← internBoundaries b)

/-- A thread with its slot and one of its transitions. -/
structure Move where
  slot : Nat
  thread : Thread
  transition : Nfa.Transition

/-- What one character leads to; threads and updates have the last one first. -/
structure Step where
  threads : List Thread := []
  updates : List SlotUpdate := []
  accept : Option Accept := none

namespace Step

def hasThread (s : Step) (state : Nat) : Bool := s.threads.any (·.state == state)

/-- Adds a thread and, without traces, the update of its slot. -/
def push (s : Step) (t : Thread) (update : Option SlotUpdate) : Step :=
  { s with threads := t :: s.threads, updates := update.toList ++ s.updates }

end Step

/-- Adds the thread that a move leads to, unless a better one has the same state. -/
def advance (s : Step) (m : Move) (target : Nfa.State) : Build n Step := do
  let state ← internState target
  if s.hasThread state then return s
  match (← get).tracer with
  | some _ =>
    return s.push ⟨state, m.thread.captures.advance m.transition.boundaries⟩ none
  | none =>
    let boundaries ← internBoundaries m.transition.boundaries
    return s.push ⟨state, #[]⟩ (some { origin := m.slot, boundaries })

/-- Makes the moves, up to the first that matches. -/
def makeMoves (context : Context) : List Move → Step → Build n Step
  | [], s => pure s
  | m :: moves, s =>
    match m.transition.target with
    | .final => do
      return { s with accept := some (← accept m.slot m.thread m.transition.boundaries) }
    | .next main lookAheads => do
      makeMoves context moves (← advance s m { main, lookAheads, context })

/-- Adds the thread that begins here, unless it is there already. -/
def inject (context : Context) (s : Step) : Build n Step := do
  let t ← initialThread context
  if s.hasThread t.state then return s
  match (← get).tracer with
  | some _ => return s.push t none
  | none => return s.push t (some { origin := none, boundaries := noBoundaries })

/-- The state for the threads of a step. -/
def target (p : Plan) (s : Step) (injecting : Bool) (tracker : BitSet) : Build n StateId :=
  if p.maxThreads < s.threads.length then throw (p.stage.exceeded .threads)
  else if s.threads.isEmpty then pure dead
  else internKey p (.search s.threads.reverse injecting tracker)

/-- The threads after the character `c`, by those moves that allow it; `tracker` is that after the
character. -/
def arrive (moves : List Move) (injecting : Bool) (tracker : BitSet) (c : Nat) : Build n Step := do
  let context := { atStart := false, satisfied := n.lookBehinds.satisfied tracker }
  let s ← makeMoves context (moves.filter (·.transition.cls.contains c)) {}
  if injecting && s.accept.isNone then inject context s else return s

/-- What the characters of `range` lead to. -/
def step (p : Plan) (moves : List Move) (injecting : Bool) (tracker : BitSet)
    (range : CodePointRange) : Build n Transition := do
  let tracker := n.lookBehinds.advance tracker range.lo
  let s ← arrive moves injecting tracker range.lo
  let target ← target p s (injecting && s.accept.isNone) tracker
  return { range, target, updates := s.updates.reverse, accept := s.accept }

/-! ## States -/

/-- Where the classes of look-behinds begin and end. -/
def trackerCuts (n : Nfa) : List Nat := n.lookBehinds.classes.flatMap cuts

/-- A state that reads the characters before a search. -/
def expandLead (p : Plan) (tracker : BitSet) : Build n State := do
  let entry ← root p tracker false
  if n.lookBehinds.isEmpty then return { entry := some entry }
  let transitions ← (intervals (ascending (0 :: trackerCuts n))).foldlM (fun ts range => do
    let target ← internKey p (.lead (n.lookBehinds.advance tracker range.lo))
    return Transition.joinTo { range, target } ts) []
  return { entry := some entry, transitions := transitions.reverse }

/-- The first match at the end of the input. -/
def endAccept (moves : List Move) : Build n (Option Accept) := do
  match moves.find? (·.transition.acceptsEnd) with
  | some m => return some (← accept m.slot m.thread m.transition.boundaries)
  | none => return none

/-- The moves of all threads, those of the preferred thread first. -/
def allMoves (threads : List Thread) : Build n (List Move) := do
  let d ← get
  let moves ← threads.zipIdx.mapM fun (thread, slot) =>
    (d.states.transitions thread.state).map fun ts =>
      ts.map fun transition => { slot, thread, transition : Move }
  return moves.flatten

/-- A state that searches. -/
def expandSearch (p : Plan) (threads : List Thread) (injecting : Bool) (tracker : BitSet) :
    Build n State := do
  let moves ← allMoves threads
  let points := ascending (0 :: trackerCuts n ++ moves.flatMap (cuts ·.transition.cls))
  let transitions ← (intervals points).foldlM (fun ts range => do
    let t ← step p moves injecting tracker range
    return if t.target = dead ∧ t.accept = none then ts else t.joinTo ts) []
  let endAccept ← endAccept moves
  let slots := if (← get).tracer.isSome then 0 else threads.length
  return { slots, transitions := transitions.reverse, endAccept }

def expand (p : Plan) : Key → Build n State
  | .dead => pure {}
  | .lead tracker => expandLead p tracker
  | .search threads injecting tracker => expandSearch p threads injecting tracker

/-- Expands the keys from number `done.size` on, at most `fuel` of them. -/
def expandAll (p : Plan) : Nat → Array State → Build n (Array State)
  | 0, done => pure done
  | fuel + 1, done => do
    match (← get).keys.get? done.size with
    | none => return done
    | some key => expandAll p fuel (done.push (← expand p key))

/-- The whole construction. -/
def dfa (p : Plan) : Build n Dfa := do
  let tracker := n.lookBehinds.initial
  let rootStart ← root p tracker n.usesStart
  let rootMid ← internKey p (.lead tracker)
  let states ← expandAll p (p.maxStates + 1) #[]
  let d ← get
  return {
    states, rootStart, rootMid
    leadLength := n.lookBehinds.maxLength
    boundaries := d.boundaries.items
    results := d.tracer.map (·.results.items)
    groups := n.groupCount }

end Build

variable {n : Nfa}

/-- The start of a construction: state 0 is dead, and boundaries 0 change nothing. -/
def Discovered.start (states : Nfa.States n) (tracer : Option TraceFinder) : Discovered n where
  states
  keys := (Interner.empty.intern Key.dead).1
  boundaries := (Interner.empty.intern Boundaries.empty).1
  tracer

/-- The automaton for a search, together with the states of the nondeterministic automaton that
were discovered, also when there is no result. -/
def build (states : Nfa.States n) (p : Plan) (tracer : Option TraceFinder) :
    Except Bailout Dfa × Nfa.States n :=
  let (result, d) := (Build.dfa p).run (Discovered.start states tracer)
  (result, d.states)

/-- Limits on the automaton with slots end the compilation. -/
def tracking (states : Nfa.States n) (sticky : Bool) (budget : Budget) :
    Except Bailout Dfa × Nfa.States n :=
  build states ⟨sticky, .dfa, budget.maxDfaSize, budget.maxThreads⟩ none

/-- Limits on the automaton with traces are limits of the trace finder. -/
def tracing (states : Nfa.States n) (sticky : Bool) (budget : Budget) :
    Except Bailout Dfa × Nfa.States n :=
  build states ⟨sticky, .traceFinder, budget.maxDfaSize, budget.maxThreads⟩
    (some (TraceFinder.new n.groupCount budget.maxTraceResults))

end PatternAutomata.Dfa
