import Ebnf.Diagnostic
import Ebnf.Document.Text
import Ebnf.Pass.Basic

/-! Everything that can go wrong, by cause. A fault is a request that the data at hand cannot
answer; it has no message of its own. -/
namespace Ebnf

/-- What a loop may not exceed. -/
inductive Ceiling where
  | iterations
  | productions
  deriving DecidableEq

def Ceiling.text : Ceiling → String
  | .iterations => "iterations"
  | .productions => "productions"

/-- What keeps a document from being a grammar. -/
inductive FormatProblem where
  | unreadable (problem : String)
  | noProductions
  | productionsNotTable
  | terminalsNotTexts
  | startNotName (start : Document)
  | notBody (body : Document)
  | notSymbol (item : Document)
  | emptyLiteral
  | notOneKey (item : Document)
  | notAlternatives (value : Document)
  | unknownShorthand (key : Key)

def FormatProblem.message : FormatProblem → String
  | .unreadable problem => s!"Not a YAML document: {problem}"
  | .noProductions => "A grammar document needs a 'productions' table"
  | .productionsNotTable => "'productions' must map each head to its list of bodies"
  | .terminalsNotTexts => "'terminals' must be a list of terminal kinds"
  | .startNotName start => s!"'start' must be a non-terminal name, not {start.shown}"
  | .notBody body => s!"A body is a list of symbols, not {body.shown}"
  | .notSymbol item => s!"Cannot read '{item.shown}' as a grammar symbol"
  | .emptyLiteral => "Empty literal; write " ++ emptyWordSign ++ " for the empty string"
  | .notOneKey item => s!"A macro is a mapping with exactly one key, not {item.shown}"
  | .notAlternatives value => s!"'alt' needs a list of alternatives, not {value.shown}"
  | .unknownShorthand key =>
    s!"Unknown macro '{key.shown}'; expected one of group, option, repeat, alt"

/-- What keeps a document from being settings. -/
inductive SettingsProblem where
  | unreadable (problem : String)
  | notTable
  | notPositive (key : String) (value : Document)

def SettingsProblem.message : SettingsProblem → String
  | .unreadable problem => s!"Settings file is not valid YAML: {problem}"
  | .notTable => "Settings file does not represent a table"
  | .notPositive key value => s!"{key} must be a positive integer, not {value.quoted}"

/-- Requests that the data at hand cannot answer: for a rule that is not there, for an index
beyond the end, for the terminals that begin shorthand, for the expansion of a rule without
shorthand, for a document of an alternative with a bar in it, and for a limit that is no number of
the kind it takes. -/
inductive Fault where
  | missingRule
  | indexOutOfRange
  | unexpandedShorthand
  | noShorthand
  | barInBranch
  | unusableLimit
  deriving DecidableEq

/-- What can go wrong. -/
inductive Failure where
  | misuse (m : Misuse)
  | contradiction (c : Contradiction)
  | divergence (loop : Loop) (limit : Document) (ceiling : Ceiling)
  | rejection (problems : List Diagnostic)
  | format (p : FormatProblem)
  | settings (p : SettingsProblem)
  | fault (f : Fault)

def Failure.message : Failure → String
  | .misuse m => m.message
  | .contradiction c => c.message
  | .divergence loop limit ceiling =>
    s!"{loop.title} did not reach a fixpoint within {limit.shown} {ceiling.text}"
  | .rejection problems => Diagnostic.summary problems
  | .format p => p.message
  | .settings p => p.message
  | .fault _ => ""

end Ebnf
