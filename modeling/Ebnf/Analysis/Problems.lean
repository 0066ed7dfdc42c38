import Ebnf.Analysis.First
import Ebnf.Analysis.LeftRecursion
import Ebnf.Analysis.Realizability

/-! The checks of a grammar. Each finds at most one problem, and a grammar without rules has
none. -/
namespace Ebnf

namespace Grammar

def deadRules (title : String) (dead : Grammar) : List Diagnostic :=
  if dead.rules = [] then []
  else
    [.ofDetails title
      [("Non-terminals", ", ".intercalate (dead.heads.map Name.text)), ("Productions", dead.text)]
      (some (.productions dead))]

def unrealizableProblems (g : Grammar) : Except Misuse (List Diagnostic) := do
  return deadRules "Unrealizable productions" (← g.unrealizableRules)

def unreachableProblems (g : Grammar) : Except Misuse (List Diagnostic) := do
  return deadRules "Unreachable productions" (← g.unreachableRules)

def leftRecursionProblems (g : Grammar) : Except Failure (List Diagnostic) := do
  let cycles ← g.leftRecursionCycles
  if cycles = [] then return []
  let details := cycles.zipIdx.map fun entry =>
    (s!"Cycle {entry.2 + 1} at {entry.1.root.text}", entry.1.text)
  return [.ofDetails "Left recursion" details (some (.cycles cycles))]

/-- The alternatives that cannot be told apart by the terminal that begins them. -/
def firstSetProblems (g : Grammar) : Except Misuse (List Diagnostic) := do
  let conflicts ← g.firstSetConflicts
  if conflicts = [] then return []
  let details := conflicts.flatMap fun conflict =>
    (conflict.heads.take 1).map fun head => (s!"Alternatives of {head.text}", conflict.text)
  return [.ofDetails "FIRST/FIRST conflicts" details (some (.conflicts conflicts))]

/-- What is wrong with a grammar for a deterministic parser: rules of heads that derive no
sentence, rules that cannot be reached, and left recursion. -/
def problems (g : Grammar) : Except Failure (List Diagnostic) := do
  if g.rules = [] then return []
  let unrealizable ← g.unrealizableProblems.mapError .misuse
  let unreachable ← g.unreachableProblems.mapError .misuse
  return unrealizable ++ unreachable ++ (← g.leftRecursionProblems)

/-- What is wrong for a parser that chooses by one terminal: the problems of a grammar, and the
alternatives that such a parser cannot choose between. -/
def ll1Problems (g : Grammar) : Except Failure (List Diagnostic) := do
  if g.rules = [] then return []
  return (← g.problems) ++ (← g.firstSetProblems.mapError .misuse)

/-- What is wrong for a table-driven parser, which can live with left recursion and with
alternatives that begin alike. -/
def lr1Problems (g : Grammar) : Except Misuse (List Diagnostic) := do
  if g.rules = [] then return []
  return (← g.unrealizableProblems) ++ (← g.unreachableProblems)

end Grammar

end Ebnf
