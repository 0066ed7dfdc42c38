import Ebnf.Analysis.Saturation
import Ebnf.Grammar.Basic

/-! Realizable non-terminals: those that derive a sentence without non-terminals in finitely
many steps. A rule of any other points at a broken grammar. -/
namespace Ebnf

/-- Whether every non-terminal of a sentence is among those known to be realizable. -/
def Sentence.realizableIn (known : List Name) (s : Sentence) : Bool :=
  s.all fun symbol => symbol.name?.all (· ∈ known)

namespace Grammar

/-- The heads with a rule whose non-terminals are all realizable, as they are found. -/
def realizableHeads (g : Grammar) : List Name :=
  saturate (fun known head => (g.rulesOf head).any (·.body.realizableIn known)) g.heads []

def realizable (g : Grammar) : Except Misuse (List Name) := do
  g.requirePlain
  return g.realizableHeads

def unrealizable (g : Grammar) : Except Misuse (List Name) := do
  let known ← g.realizable
  return g.heads.filter (· ∉ known)

def unrealizableRules (g : Grammar) : Except Misuse Grammar := do
  let dead ← g.unrealizable
  return g.subset (g.rules.filter (·.head ∈ dead))

end Grammar

end Ebnf
