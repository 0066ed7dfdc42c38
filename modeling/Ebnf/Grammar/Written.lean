import Ebnf.Grammar.Writer

/-! What is kept of a grammar that is written and read again. The rules of one head come together,
and there is no form for an alternative with a bar in one of its branches. -/
namespace Ebnf

/-- The grammar with the rules of each head put together, heads in order of first appearance. -/
def Grammar.regrouped (g : Grammar) : Grammar := ⟨g.heads.flatMap g.rulesOf, g.start⟩

namespace Document

mutual

/-- The branches of all alternatives in a document, at any depth. -/
def branches : Document → List Document
  | .list items => branchesIn items
  | .table entries => branchesUnder entries
  | _ => []

def branchesIn : List Document → List Document
  | [] => []
  | d :: rest => d.branches ++ branchesIn rest

def branchesUnder : List (Key × Document) → List Document
  | [] => []
  | (key, d) :: rest =>
    (if key = .text alternativeKey then d.items?.getD [] else []) ++ d.branches ++
      branchesUnder rest

end

/-- Whether one of the items of a body is a bar. -/
def hasBar : Document → Bool
  | .text s => "|" ∈ Text.words s
  | .list items => items.any (·.text? = some "|")
  | _ => false

/-- No alternative in the bodies of the rules has a branch with a bar. -/
def BarlessBranches (d : Document) : Prop :=
  ∀ entries, d.ruleTable = .ok entries → ∀ entry ∈ entries,
    ∀ branch ∈ entry.2.branches, branch.hasBar = false

end Document

end Ebnf
