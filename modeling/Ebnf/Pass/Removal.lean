import Ebnf.Analysis.Reachability
import Ebnf.Editing.Basic

/-! Removal of rules that the language does not need: repeated ones, and those of non-terminals
that cannot be reached. -/
namespace Ebnf

/-- The elements of a list that are equal to an earlier one, or to one of those seen before. -/
def repeatedAfter {α : Type} [DecidableEq α] : (seen : List α) → List α → List α
  | _, [] => []
  | seen, a :: rest =>
    if a ∈ seen then a :: repeatedAfter seen rest else repeatedAfter (a :: seen) rest

namespace Editing

/-- Drops each rule that is equal to an earlier one. -/
def dropRepeated : Editing Unit := do
  let g ← current
  (repeatedAfter [] g.rules).forM (commit .duplicates · [])
  edit (fun g => { g with rules := g.rules.eraseDups })

/-- Keeps the first of several equal rules. -/
def removeDuplicates : Editing Unit := perform .duplicates dropRepeated

def dropUnreachable : Editing Unit := do
  let g ← current
  if g.rules = [] then return
  let reached ← ofExcept (g.reachable.mapError .misuse)
  let dead := g.dropped (· ∈ reached)
  edit (·.retain (· ∈ reached))
  dead.forM (commit .unreachable · [])
  if dead ≠ [] then remark (.removed (dead.map Rule.head).eraseDups)

def removeUnreachable : Editing Unit := perform .unreachable dropUnreachable

end Editing

end Ebnf
