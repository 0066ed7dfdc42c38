import Ebnf.Sentence.Basic

/-! Production rules. A body has a leading symbol and the symbols after it: a rule for the
empty word has ε as its body, so no body is empty. -/
namespace Ebnf

/-- A rule for a non-terminal, with a body that begins with `lead`. -/
structure Rule where
  head : Name
  lead : Symbol
  rest : List Symbol
  deriving DecidableEq

namespace Rule

def body (r : Rule) : Sentence := r.lead :: r.rest

/-- The rule with a given body, an empty one being read as ε. -/
def ofBody (head : Name) : Sentence → Rule
  | [] => ⟨head, .epsilon, []⟩
  | lead :: rest => ⟨head, lead, rest⟩

def ofItems (head : Name) (items : List Item) : Rule := ofBody head (Sentence.ofItems items)

def text (r : Rule) : String := r.head.text ++ " -> " ++ r.body.text

/-- Whether a rule begins with its own head. -/
def isLeftRecursive (r : Rule) : Bool := r.lead = .nonTerminal r.head

/-- The non-terminal that is the whole body, if there is nothing else in it. -/
def unit? (r : Rule) : Option Name := if r.rest = [] then r.lead.name? else none

def isUnit (r : Rule) : Bool := r.unit?.isSome

/-- Whether the body is made of ε only. -/
def isEpsilon (r : Rule) : Bool := r.body.isEpsilon

def hasShorthand (r : Rule) : Bool := r.body.hasShorthand

/-- The names in a rule: its head, and all in its body at any depth. -/
def names (r : Rule) : List Name := r.head :: Symbol.namesIn r.body

end Rule

end Ebnf
