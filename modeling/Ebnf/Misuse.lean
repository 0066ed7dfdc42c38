import Ebnf.Rule

/-! What a caller can do wrong: asking for a symbol that cannot be, for a place in a sentence
that is not there, or for work on a grammar that is not ready for it. -/
namespace Ebnf

/-- The ways in which an operation is used outside its precondition. -/
inductive Misuse where
  | invalidName (text : String)
  | emptyBracket (kind : Bracket)
  | noBranches
  | outOfRange (position : Int) (sentence : Sentence)
  | notNonTerminal (symbol : Symbol) (position : Nat)
  | otherHead (symbol : Symbol) (position : Nat) (rule : Rule)
  | nothingToDerive (sentence : Sentence)
  | shorthandLeft
  | noStart
  | undefinedStart (start : Name)
  deriving DecidableEq

def Bracket.title : Bracket → String
  | .group => "Group"
  | .option => "Option"
  | .repetition => "Repetition"

def Misuse.message : Misuse → String
  | .invalidName text => s!"'{text}' is not a valid non-terminal name"
  | .emptyBracket kind => s!"{kind.title} must wrap at least one symbol"
  | .noBranches => "Alternative must have at least one alternative"
  | .outOfRange position sentence =>
    s!"Position {position} is out of range for '{sentence.text}'"
  | .notNonTerminal symbol position =>
    s!"Cannot derive from {symbol.text} at position {position}: not a non-terminal"
  | .otherHead symbol position rule =>
    s!"{symbol.text} at position {position} does not match the head of {rule.text}"
  | .nothingToDerive sentence => s!"No non-terminal in '{sentence.text}'"
  | .shorthandLeft => "The production set contains macros; expand them first"
  | .noStart => "The production set has no start symbol"
  | .undefinedStart start =>
    s!"Start symbol {start.text} is not the head of any production"

end Ebnf
