import Ebnf.Grammar.Basic

/-! Alternatives of one head that begin with the same symbol. Those that begin with ε are left
out: what they share is no common beginning of words. -/
namespace Ebnf

/-- Two or more alternatives of a head that begin with the same symbol. -/
structure LeadGroup where
  head : Name
  lead : Symbol
  rules : List Rule
  deriving DecidableEq

namespace Grammar

/-- The symbols that the alternatives of a head begin with, in order of first appearance. -/
def leadsOf (g : Grammar) (head : Name) : List Symbol :=
  (((g.rulesOf head).map Rule.lead).filter (· ≠ .epsilon)).eraseDups

/-- The alternatives of a head grouped by the symbol they begin with, if there are several. -/
def leadGroupsOf (g : Grammar) (head : Name) : List LeadGroup :=
  ((g.leadsOf head).map fun lead =>
    ⟨head, lead, (g.rulesOf head).filter (·.lead = lead)⟩).filter (1 < ·.rules.length)

def leadGroups (g : Grammar) : Except Misuse (List LeadGroup) := do
  g.requirePlain
  return g.heads.flatMap g.leadGroupsOf

def sharedLeadHeads (g : Grammar) : Except Misuse (List Name) := do
  let groups ← g.leadGroups
  return (groups.map LeadGroup.head).eraseDups

end Grammar

end Ebnf
