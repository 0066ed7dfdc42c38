import Ebnf.Analysis.SharedLeads
import Ebnf.Editing.Basic

/-! Factoring of alternatives that begin with the same symbol: what stands behind that symbol is
moved to a fresh non-terminal. The moved parts can share a symbol again, so rounds go on until no
alternatives of one head begin alike. -/
namespace Ebnf

namespace LeadGroup

/-- The rule that takes the place of a group: the shared symbol and the fresh non-terminal. -/
def factored (group : LeadGroup) (fresh : Name) : Rule :=
  ⟨group.head, group.lead, [.nonTerminal fresh]⟩

/-- What stands behind the shared symbol of a rule, as a rule of the fresh non-terminal. -/
def suffix (fresh : Name) (rule : Rule) : Rule := .ofBody fresh (Sentence.strip rule.rest)

/-- The rules that take the place of a group. -/
def replacements (group : LeadGroup) (fresh : Name) : List Rule :=
  group.factored fresh :: (group.rules.map (suffix fresh)).eraseDups

end LeadGroup

namespace Editing

/-- Factors the shared symbol out of the alternatives of a group, of which there has to be a
first. -/
def factor (group : LeadGroup) : Editing Unit := do
  let g ← current
  let fresh := g.fresh group.head
  tell (.minted fresh g)
  match group.rules with
  | [] => fail (.fault .indexOutOfRange)
  | first :: others =>
    replace first (group.replacements fresh)
    others.forM erase
    group.rules.forM fun rule =>
      commit .sharedLeads rule [group.factored fresh, LeadGroup.suffix fresh rule]
    remark (.factored group.lead group.rules.length group.head fresh)

/-- Factors all groups there are. -/
def factorRound : Editing Bool := do
  let g ← current
  let groups ← ofExcept (g.leadGroups.mapError .misuse)
  if groups = [] then return true
  groups.forM factor
  return false

/-- Factors until no two alternatives of one head begin with the same symbol. -/
def factorSharedLeads (limits : Limits) : Editing Unit :=
  perform .sharedLeads (repeatUntil (.single .sharedLeads) limits.maxIterations factorRound)

end Editing

end Ebnf
