import Ebnf.Misuse

/-! Grammars: an ordered list of rules and a start symbol. The order of the rules of one head is
the priority of its alternatives, and a rule may occur more than once. -/
namespace Ebnf

/-- Rules in order, and the non-terminal to start from, if one is chosen. -/
structure Grammar where
  rules : List Rule
  start : Option Name
  deriving DecidableEq

namespace Grammar

/-- The grammar of some rules. Without a choice, it starts from the head of the first. -/
def ofRules (rules : List Rule) (start : Option Name) : Grammar :=
  ⟨rules, start <|> rules.head?.map Rule.head⟩

/-- The grammar of some of the rules, with the same start symbol. -/
def subset (g : Grammar) (rules : List Rule) : Grammar := ofRules rules g.start

/-- A copy of a grammar; one that has rules has a start symbol. -/
def copy (g : Grammar) : Grammar := ofRules g.rules g.start

/-- The rules of a non-terminal in order. -/
def rulesOf (g : Grammar) (name : Name) : List Rule := g.rules.filter (·.head = name)

/-- The heads of the rules in order of first appearance. -/
def heads (g : Grammar) : List Name := (g.rules.map Rule.head).eraseDups

/-- The rules of each head. -/
def groups (g : Grammar) : List (Name × List Rule) :=
  g.heads.map (fun head => (head, g.rulesOf head))

/-- The terminals that stand in the bodies, outside all shorthand, in order of appearance. -/
def terminals (g : Grammar) : List Terminal :=
  (g.rules.flatMap (fun rule => rule.body.filterMap Symbol.terminal?)).eraseDups

/-- The names that occur in the rules, at any depth. -/
def names (g : Grammar) : List Name := g.rules.flatMap Rule.names

/-- A name like the given one with prime marks appended, as few as make it new to the rules. Only
names that begin like the given one can stand in its way. -/
def fresh (g : Grammar) (name : Name) : Name :=
  name.freshPrime (g.names.filter (·.text.startsWith name.text))

def hasShorthand (g : Grammar) : Bool := g.rules.any Rule.hasShorthand

/-- Refuses a grammar with shorthand. -/
def requirePlain (g : Grammar) : Except Misuse Unit :=
  if g.hasShorthand then .error .shorthandLeft else .ok ()

/-- The start symbol, which has to be chosen and, if there are rules at all, to head one. -/
def requireStart (g : Grammar) : Except Misuse Name :=
  match g.start with
  | none => .error .noStart
  | some start =>
    if g.rules ≠ [] ∧ g.rulesOf start = [] then .error (.undefinedStart start) else .ok start

def text (g : Grammar) : String := "\n".intercalate (g.rules.map Rule.text)

def ebnf (g : Grammar) : String :=
  "\n".intercalate <| g.groups.map fun group =>
    s!"{group.1.text} ::= {alternatives group.2} ;"
where
  alternatives (rules : List Rule) : String :=
    " | ".intercalate (rules.map (fun rule => rule.body.text))

end Grammar

end Ebnf
