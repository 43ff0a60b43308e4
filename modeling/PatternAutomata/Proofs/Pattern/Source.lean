import PatternAutomata.Pattern.Reader
import PatternAutomata.Proofs.CaseForms
import PatternAutomata.Proofs.Tree.Outline
import PatternAutomata.Tree.Render

/-!
# Source trees

A source tree is a pattern before it is written. `Source.render` writes it, with a backslash before
every character that would mean something else, and `Source.outline` tells what it stands for: capture
groups are numbered from left to right, classes are sets of code points, and quantifiers are built
away.
-/

namespace PatternAutomata

/-! ## Case -/

/-- The code point that all code points equivalent to `c` under the flags share. -/
def Flags.form (flags : Flags) (c : Nat) : Nat :=
  if flags.ignoreCase then if flags.unicode then foldForm c else upperForm c else c

/-- The code points that are equivalent under the flags to one in `m`. -/
def Flags.closure (flags : Flags) (m : Set Nat) : Set Nat :=
  {c | ∃ d ∈ m, flags.form c = flags.form d}

namespace Pattern

/-! ## Quantifiers -/

namespace Quantifier

/-- A group that stands for `terms` or for nothing. -/
def optionalOutline (greedy : Bool) (role : GroupRole) (lo hi : Nat) (terms : List Outline) : Outline :=
  .group role lo hi
    (if greedy then [.sequence terms, .sequence []] else [.sequence [], .sequence terms])

/-- `n` optional iterations, each inside the one before it. -/
def nestedOutline (greedy : Bool) (lo hi : Nat) (x : Outline) : Nat → List Outline
  | 0 => []
  | n + 1 => [optionalOutline greedy .unrolled lo hi (x :: nestedOutline greedy lo hi x n)]

/-- One iteration that must happen. What has capture groups in it becomes a group. -/
def iterationOutline (lo hi : Nat) (x : Outline) : Outline :=
  if lo < hi then .group .unrolled lo hi [.sequence [x]] else x

/-- What stands for the outline `x` under a quantifier, if the capture groups in it are those from `lo`
to before `hi`: first the iterations that must happen, then those that may. -/
def outlines (q : Quantifier) (lo hi : Nat) (x : Outline) : List Outline :=
  List.replicate q.min (iterationOutline lo hi x) ++
    match q.max with
    | none => [optionalOutline q.greedy .loop lo hi [x]]
    | some max => nestedOutline q.greedy lo hi x (max - q.min)

end Quantifier

namespace Source

/-- A number of iterations that fits into 32 bits. -/
abbrev Number := Fin 0x100000000

/-- How often a term is repeated. -/
inductive Count where
  | star
  | plus
  | optional
  | exactly (n : Number)
  | atLeast (n : Number)
  | between (n m : Number) (h : n ≤ m)

namespace Count

def min : Count → Nat
  | star | optional => 0
  | plus => 1
  | exactly n | atLeast n | between n _ _ => n

def max : Count → Option Nat
  | star | plus | atLeast _ => none
  | optional => some 1
  | exactly n => some n
  | between _ m _ => some m

def text : Count → List Char
  | star => ['*']
  | plus => ['+']
  | optional => ['?']
  | exactly n => '\x7b' :: Nat.toDigits 10 n ++ ['\x7d']
  | atLeast n => '\x7b' :: Nat.toDigits 10 n ++ [',', '\x7d']
  | between n m _ => '\x7b' :: Nat.toDigits 10 n ++ ',' :: Nat.toDigits 10 m ++ ['\x7d']

end Count

structure Repetition where
  count : Count
  greedy : Bool

namespace Repetition

def quantifier (q : Repetition) : Quantifier := ⟨q.count.min, q.count.max, q.greedy⟩

def text (q : Repetition) : List Char := q.count.text ++ if q.greedy then [] else ['?']

/-- What stands for `x`, with or without a quantifier after it. -/
def outlines (q : Option Repetition) (lo hi : Nat) (x : Outline) : List Outline :=
  q.elim [x] fun q => q.quantifier.outlines lo hi x

end Repetition

/-! ## Classes -/

inductive ClassKind where
  | digit
  | space
  | word

def ClassKind.set : ClassKind → CodePointSet
  | digit => .digits
  | space => .whiteSpace
  | word => .wordChars

/-- A class that a letter names after a backslash. -/
structure ClassEscape where
  kind : ClassKind
  negated : Bool

namespace ClassEscape

def letter : ClassEscape → Char
  | ⟨.digit, false⟩ => 'd'
  | ⟨.digit, true⟩ => 'D'
  | ⟨.space, false⟩ => 's'
  | ⟨.space, true⟩ => 'S'
  | ⟨.word, false⟩ => 'w'
  | ⟨.word, true⟩ => 'W'

def members (e : ClassEscape) : Set Nat :=
  {c | if e.negated then c ≤ maxCodePoint ∧ c ∉ e.kind.set else c ∈ e.kind.set}

end ClassEscape

/-- What may stand between brackets. -/
inductive Item where
  | char (c : Char)
  | range (lo hi : Char) (h : lo ≤ hi)
  | escape (e : ClassEscape)

def Item.members : Item → Set Nat
  | char c => {d | d = c.toNat}
  | range lo hi _ => {d | lo.toNat ≤ d ∧ d ≤ hi.toNat}
  | escape e => e.members

/-- Which characters are escaped between brackets: at least those that would mean something else there,
and otherwise only those that may be escaped. -/
structure BracketEscapes where
  escaped : Char → Bool
  needed : ∀ c ∈ "][\\^-".toList, escaped c = true
  allowed : ∀ c, escaped c = true → isSyntaxChar c = true ∨ c = '-'

/-- Only what would mean something else is escaped. -/
def BracketEscapes.least : BracketEscapes where
  escaped := "][\\^-".toList.contains
  needed _ hc := List.contains_iff_mem.mpr hc
  allowed c hc := by
    have hall : "][\\^-".toList.all (fun d => isSyntaxChar d || d == '-') = true := rfl
    have hd := List.all_eq_true.mp hall c (List.contains_iff_mem.mp hc)
    exact (Bool.or_eq_true_iff.mp hd).imp id beq_iff_eq.mp

/-- A character, after a backslash if that is asked for. -/
def charText (escaped : Bool) (c : Char) : List Char := if escaped then ['\\', c] else [c]

def Item.text (b : BracketEscapes) : Item → List Char
  | char c => charText (b.escaped c) c
  | range lo hi _ => charText (b.escaped lo) lo ++ '-' :: charText (b.escaped hi) hi
  | escape e => ['\\', e.letter]

/-- A term that stands for one character. -/
inductive Leaf where
  | char (c : Char)
  | dot
  | escape (e : ClassEscape)
  | bracket (negated : Bool) (items : List Item)

namespace Leaf

def members (flags : Flags) : Leaf → Set Nat
  | char c => flags.closure {d | d = c.toNat}
  | dot => {c | c ≤ maxCodePoint ∧ (flags.dotAll = true ∨ c ∉ CodePointSet.lineTerminators)}
  | escape e => flags.closure e.members
  | bracket false items => flags.closure {c | ∃ i ∈ items, c ∈ i.members}
  | bracket true items => {c | c ≤ maxCodePoint ∧ c ∉ flags.closure {c | ∃ i ∈ items, c ∈ i.members}}

def text (b : BracketEscapes) : Leaf → List Char
  | char c => charText (isSyntaxChar c) c
  | dot => ['.']
  | escape e => ['\\', e.letter]
  | bracket negated items =>
    '[' :: (if negated then ['^'] else []) ++ items.flatMap (Item.text b) ++ [']']

end Leaf

/-! ## Terms -/

/-- A group name. -/
structure Name where
  first : Char
  rest : List Char
  isNameStart_first : isNameStart first = true
  isNamePart : ∀ c ∈ first :: rest, isNamePart c = true

def Name.toString (n : Name) : String := String.ofList (n.first :: n.rest)

/-- What a pair of parentheses is there for. -/
inductive Grouping where
  | plain
  | capture
  | named (name : Name)
  | look (direction : Direction) (negated : Bool)

namespace Grouping

/-- Of the look-arounds only look-aheads may be quantified, and these not with the unicode flag. -/
def quantifiable (unicode : Bool) : Grouping → Bool
  | look direction _ => direction = .ahead && !unicode
  | _ => true

/-- The name of the capture group, if it is one. -/
def names : Grouping → List (Option String)
  | capture => [none]
  | named n => [some n.toString]
  | _ => []

/-- How the group opens. -/
def text : Grouping → List Char
  | plain => ['(', '?', ':']
  | capture => ['(']
  | named n => '(' :: '?' :: '<' :: n.first :: n.rest ++ ['>']
  | look .ahead negated => ['(', '?', if negated then '!' else '=']
  | look .behind negated => ['(', '?', '<', if negated then '!' else '=']

/-- A group that begins when `next` is the number of the next capture group, and ends when `stop` is. -/
def outline (next stop : Nat) (alternatives : List Outline) : Grouping → Outline
  | plain => .group .plain next stop alternatives
  | capture | named _ => .group (.capture next) (next + 1) stop alternatives
  | look direction negated => .look direction negated (.group .plain next stop alternatives)

end Grouping

end Source

open Source in
/-- A term of a source tree. The alternatives of a group are a first one and more. -/
inductive SourceTerm (unicode : Bool) where
  | assertion (a : Assertion)
  | leaf (l : Leaf) (q : Option Repetition)
  | group (g : Grouping) (first : List (SourceTerm unicode)) (more : List (List (SourceTerm unicode)))
      (q : Option Repetition) (h : q.isSome = true → g.quantifiable unicode = true)

namespace SourceTerm

open Source

variable {unicode : Bool}

/-! ### Texts -/

def repetitionText (q : Option Repetition) : List Char := q.elim [] Repetition.text

mutual

def text (b : BracketEscapes) : SourceTerm unicode → List Char
  | assertion a => a.render.toList
  | leaf l q => l.text b ++ repetitionText q
  | group g first more q _ =>
    g.text ++ textAll b first ++ textMore b more ++ ')' :: repetitionText q

/-- A sequence. -/
def textAll (b : BracketEscapes) : List (SourceTerm unicode) → List Char
  | [] => []
  | t :: ts => t.text b ++ textAll b ts

/-- More alternatives after the first one. -/
def textMore (b : BracketEscapes) : List (List (SourceTerm unicode)) → List Char
  | [] => []
  | ts :: more => '|' :: textAll b ts ++ textMore b more

end

/-! ### Names -/

mutual

/-- The capture groups, by their names, in the order in which they open. -/
def names : SourceTerm unicode → List (Option String)
  | assertion _ | leaf _ _ => []
  | group g first more _ _ => g.names ++ namesAll first ++ namesMore more

def namesAll : List (SourceTerm unicode) → List (Option String)
  | [] => []
  | t :: ts => t.names ++ namesAll ts

def namesMore : List (List (SourceTerm unicode)) → List (Option String)
  | [] => []
  | ts :: more => namesAll ts ++ namesMore more

end

/-! ### Outlines -/

mutual

/-- What a term stands for if its first capture group gets the number `next`. -/
def outlines (flags : Flags) (next : Nat) : SourceTerm unicode → List Outline
  | assertion a => [.assertion a]
  | leaf l q => Repetition.outlines q next next (.charClass (l.members flags))
  | group g first more q _ =>
    let inside := next + g.names.length
    let afterFirst := inside + (namesAll first).length
    let stop := afterFirst + (namesMore more).length
    Repetition.outlines q next stop <| g.outline next stop <|
      .sequence (outlinesAll flags inside first) :: outlinesMore flags afterFirst more

def outlinesAll (flags : Flags) (next : Nat) : List (SourceTerm unicode) → List Outline
  | [] => []
  | t :: ts => t.outlines flags next ++ outlinesAll flags (next + t.names.length) ts

def outlinesMore (flags : Flags) (next : Nat) : List (List (SourceTerm unicode)) → List Outline
  | [] => []
  | ts :: more =>
    .sequence (outlinesAll flags next ts) :: outlinesMore flags (next + (namesAll ts).length) more

end

end SourceTerm

open SourceTerm in
/-- A source tree. No two capture groups have the same name. -/
structure Source (unicode : Bool) where
  first : List (SourceTerm unicode)
  more : List (List (SourceTerm unicode))
  nodup : ((namesAll first ++ namesMore more).filterMap id).Nodup

namespace Source

open SourceTerm

variable {unicode : Bool}

/-- The pattern. -/
def render (b : BracketEscapes) (s : Source unicode) : String :=
  String.ofList (textAll b s.first ++ textMore b s.more)

/-- The names of the capture groups by number, from group 0 on. -/
def groupNames (s : Source unicode) : List (Option String) :=
  none :: namesAll s.first ++ namesMore s.more

/-- The whole pattern is capture group 0. -/
def outline (flags : Flags) (s : Source unicode) : Outline :=
  .group (.capture 0) 1 s.groupNames.length <|
    .sequence (outlinesAll flags 1 s.first) ::
      outlinesMore flags (1 + (namesAll s.first).length) s.more

end Source

end Pattern

end PatternAutomata
