import Ebnf.Derivation

/-! Left recursion cycles: leftmost derivation steps from a non-terminal, its root, that lead to
a sentence beginning with the root again. -/
namespace Ebnf

/-- A list of steps that is not empty. -/
structure Cycle where
  first : Derivation
  others : List Derivation
  deriving DecidableEq

/-- States that no sequence of steps may reach. -/
inductive Contradiction where
  | noSteps
  | openCycle (root : Name)
  | onlyLeftRecursive (head : Name)
  | notClosing (rule : Rule) (root : Name)
  | noAlternatives (root : Name)
  deriving DecidableEq

def Contradiction.message : Contradiction → String
  | .noSteps => "A left recursion cycle needs at least one derivation"
  | .openCycle root => s!"Derivations do not lead back to {root.text}"
  | .onlyLeftRecursive head =>
    s!"Every alternative of {head.text} is left-recursive; it derives no sentence"
  | .notClosing rule root => s!"{rule.text} does not close the cycle at {root.text}"
  | .noAlternatives root => s!"{root.text} has no productions to substitute"

namespace Cycle

def steps (c : Cycle) : List Derivation := c.first :: c.others

/-- The non-terminal that a cycle starts from and leads back to. -/
def root (c : Cycle) : Name := c.first.rule.head

def rules (c : Cycle) : List Rule := c.steps.map Derivation.rule

def last (c : Cycle) : Derivation := c.others.getLastD c.first

def isDirect (c : Cycle) : Bool := c.others.isEmpty

def text (c : Cycle) : String := "\n".intercalate (c.steps.map Derivation.text)

/-- The cycle of some steps, which must lead back to the first head. -/
def ofSteps : List Derivation → Except Contradiction Cycle
  | [] => .error .noSteps
  | first :: others =>
    let cycle : Cycle := ⟨first, others⟩
    if cycle.last.derived.head? = some (.nonTerminal cycle.root) then .ok cycle
    else .error (.openCycle cycle.root)

/-- The leftmost steps from a sentence by the given rules in turn. -/
def stepsFrom (s : Sentence) : List Rule → Except Misuse (List Derivation)
  | [] => .ok []
  | rule :: rules => do
    let step ← s.derive 0 rule
    return step :: (← stepsFrom step.derived rules)

end Cycle

end Ebnf
