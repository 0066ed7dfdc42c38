import Ebnf.Editing.Basic

/-! Expansion of unit rules. A rule whose body is a single non-terminal gives way to rules with
the bodies of that non-terminal. Some units are set aside instead: one that names its own head,
one whose expansion would give it back, and one whose target has no rules. -/
namespace Ebnf

namespace Grammar

/-- What a unit rule with the given target expands to. -/
def unitExpansion (g : Grammar) (unit : Rule) (target : Name) : List Rule :=
  (g.rulesOf target).map fun alternative => { alternative with head := unit.head }

end Grammar

namespace Editing

/-- Expands a unit rule or sets it aside; the result is what is set aside then. -/
def expandUnit (aside : List Rule) (unit : Rule) (target : Name) : Editing (List Rule) := do
  let g ← current
  let expansion := g.unitExpansion unit target
  if target = unit.head then
    remark (.selfLoop unit)
    return aside ++ [unit]
  else if unit ∈ expansion then
    remark (.reproducing unit)
    return aside ++ [unit]
  else if expansion = [] then
    return aside ++ [unit]
  else
    replace unit expansion
    commit .units unit expansion
    return aside

/-- Expands a rule if it is a unit that is still there and not set aside. -/
def expandIfUnit (aside : List Rule) (rule : Rule) : Editing (List Rule) := do
  let g ← current
  match rule.unit? with
  | some target =>
    if rule ∉ aside ∧ rule ∈ g.rules then expandUnit aside rule target else return aside
  | none => return aside

/-- Goes through the rules once. It settles when all units that remain are set aside. -/
def unitRound (aside : List Rule) : Editing (Progress (List Rule)) := do
  let g ← current
  let aside ← g.rules.foldlM expandIfUnit aside
  let g' ← current
  return if g'.rules.any (fun rule => rule.isUnit && rule ∉ aside) then .unsettled aside
    else .settled aside

/-- Expands the unit rules in rounds until all that remain are set aside. The result is these. -/
def expandUnits (limits : Limits) : Editing (List Rule) :=
  perform .units (settle (.single .units) limits.maxIterations unitRound [])

end Editing

end Ebnf
