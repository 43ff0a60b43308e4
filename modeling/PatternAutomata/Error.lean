import PatternAutomata.Flags

/-!
# Why a pattern is not compiled

A pattern that breaks the grammar is a syntax error at a position. A pattern that keeps to the
grammar may still exceed a limit or use a feature that automata do not offer; that is a bailout,
and the stage that noticed it is reported with it.
-/

namespace PatternAutomata

/-- The ways in which a pattern can break the grammar. -/
inductive SyntaxFault where
  | unexpectedParenthesis
  | unclosedParenthesis
  | unclosedCharacterClass
  | nothingToRepeat
  | invalidQuantifierRange
  | incompleteQuantifier
  | loneQuantifierBrackets
  | invalidEscape (c : Char)
  | trailingBackslash
  | invalidUnicodeEscape
  | invalidGroup
  | invalidGroupName
  | duplicateGroupName (name : String)
  | undefinedGroupName (name : String)
  | invalidCharacterClassRange
  | invalidClassEscapeInRange
  | invalidPropertyName (name : String)
deriving DecidableEq

def SyntaxFault.message : SyntaxFault → String
  | unexpectedParenthesis => "unmatched ')'"
  | unclosedParenthesis => "unterminated group"
  | unclosedCharacterClass => "unterminated character class"
  | nothingToRepeat => "nothing to repeat"
  | invalidQuantifierRange => "numbers out of order in \x7b\x7d quantifier"
  | incompleteQuantifier => "incomplete quantifier"
  | loneQuantifierBrackets => "lone quantifier brackets"
  | invalidEscape c => "invalid escape character " ++ Quoted.ofChar c
  | trailingBackslash => "\\ at end of pattern"
  | invalidUnicodeEscape => "invalid unicode escape"
  | invalidGroup => "invalid group"
  | invalidGroupName => "invalid capture group name"
  | duplicateGroupName name => "duplicate capture group name " ++ Quoted.ofString name
  | undefinedGroupName name => "invalid named capture referenced: " ++ Quoted.ofString name
  | invalidCharacterClassRange => "range out of order in character class"
  | invalidClassEscapeInRange => "invalid character class escape in range"
  | invalidPropertyName name => "invalid property name " ++ Quoted.ofString name

structure SyntaxError where
  position : Nat
  fault : SyntaxFault
deriving DecidableEq

def SyntaxError.message (e : SyntaxError) : String :=
  "invalid regular expression at position " ++ toString e.position ++ ": " ++ e.fault.message

inductive Stage where
  | parse
  | nfa
  | dfa
  | traceFinder
  | nodeSplitter
deriving DecidableEq

def Stage.name : Stage → String
  | parse => "parse"
  | nfa => "nfa"
  | dfa => "dfa"
  | traceFinder => "trace-finder"
  | nodeSplitter => "node-splitter"

inductive Limit where
  | treeSize
  | nfaSize
  | dfaSize
  | splitDfaSize
  | countedRepetition
  | captureGroups
  | nestingDepth
  | threads
  | traceResults
deriving DecidableEq

def Limit.name : Limit → String
  | treeSize => "max_parse_tree_size"
  | nfaSize => "max_nfa_size"
  | dfaSize => "max_dfa_size"
  | splitDfaSize => "max_dfa_size_after_splitting"
  | countedRepetition => "max_counted_repetition"
  | captureGroups => "max_capture_groups"
  | nestingDepth => "max_nesting_depth"
  | threads => "max_nfa_states_per_dfa_state"
  | traceResults => "trace_finder_max_results"

/-- Constructs that patterns may contain but automata do not offer. -/
inductive Feature where
  | backReference
  | negativeLookAhead
  | nonLiteralLookBehind
deriving DecidableEq

def Feature.name : Feature → String
  | backReference => "back-reference"
  | negativeLookAhead => "negative look-ahead"
  | nonLiteralLookBehind => "non-literal look-behind"

inductive BailoutReason where
  | exceeded (limit : Limit)
  | unsupported (feature : Feature)
deriving DecidableEq

def BailoutReason.message : BailoutReason → String
  | exceeded limit => "exceeded " ++ limit.name
  | unsupported feature => "unsupported " ++ feature.name

structure Bailout where
  stage : Stage
  reason : BailoutReason
deriving DecidableEq

def Bailout.message (b : Bailout) : String :=
  "bailout in " ++ b.stage.name ++ " stage: " ++ b.reason.message

/-- The bailout of a stage that would exceed a limit. -/
def Stage.exceeded (stage : Stage) (limit : Limit) : Bailout := ⟨stage, .exceeded limit⟩

/-- The bailout of a stage that meets a feature it does not offer. -/
def Stage.unsupported (stage : Stage) (feature : Feature) : Bailout := ⟨stage, .unsupported feature⟩

inductive CompileError where
  | malformed (e : SyntaxError)
  | flags (e : FlagsError)
  | bailout (b : Bailout)
deriving DecidableEq

namespace CompileError

def message : CompileError → String
  | malformed e => e.message
  | flags e => e.message
  | bailout b => b.message

def isBailout : CompileError → Bool
  | bailout _ => true
  | _ => false

end CompileError

end PatternAutomata
