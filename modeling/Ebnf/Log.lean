/-! Log lines: how grave they are, which part of the program they come from, and what they say. -/
namespace Ebnf.Log

/-- How grave a line is. -/
inductive Level where
  | debug
  | info
  | warning
  | error
  deriving DecidableEq

def Level.title : Level → String
  | debug => "DEBUG"
  | info => "INFO"
  | warning => "WARNING"
  | error => "ERROR"

/-- The rank of a level; a line is shown if its rank is at least that of the threshold. -/
def Level.rank : Level → Nat
  | debug => 0
  | info => 1
  | warning => 2
  | error => 3

/-- The part of the program that a line comes from. -/
inductive Topic where
  | transformations
  | shorthand
  | units
  | sharedLeads
  | leftRecursion
  | reachability
  | augmentation
  | problems
  | passes
  | documents
  | settings
  | commandLine
  deriving DecidableEq

/-- The name that the lines of a part are marked with. -/
def Topic.title : Topic → String
  | transformations => "grammnorm.transform"
  | shorthand => "grammnorm.macro_expansion"
  | units => "grammnorm.unit_productions"
  | sharedLeads => "grammnorm.common_prefix"
  | leftRecursion => "grammnorm.left_recursion"
  | reachability => "grammnorm.reachability"
  | augmentation => "grammnorm.augment"
  | problems => "grammnorm.diagnostics"
  | passes => "grammnorm.pipeline"
  | documents => "grammnorm.loader"
  | settings => "grammnorm.settings"
  | commandLine => "grammnorm.normalize"

/-- A line of the log. -/
structure Line where
  level : Level
  topic : Topic
  message : String
  deriving DecidableEq

def Line.shownFrom (threshold : Level) (l : Line) : Bool := threshold.rank ≤ l.level.rank

def Line.text (l : Line) : String := s!"{l.level.title}:{l.topic.title}:{l.message}"

end Ebnf.Log
