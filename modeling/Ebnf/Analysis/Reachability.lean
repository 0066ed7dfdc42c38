import Ebnf.Grammar.Basic

/-! Reachable non-terminals: those that occur in some sentential form derived from the start
symbol. They are listed in breadth-first order. Rules of the others can be dropped without
changing the language. -/
namespace Ebnf

/-- Takes the names that are mentioned off the pending ones, in order of mention. The result is
what was found and what is still pending. -/
def discover : (pending mentioned : List Name) → List Name × List Name
  | pending, [] => ([], pending)
  | pending, name :: rest =>
    if name ∈ pending then
      let found := discover (pending.erase name) rest
      (name :: found.1, found.2)
    else discover pending rest

theorem length_discover (pending mentioned : List Name) :
    (discover pending mentioned).1.length + (discover pending mentioned).2.length =
      pending.length := by
  induction mentioned generalizing pending with
  | nil => simp [discover]
  | cons name rest ih =>
    simp only [discover]
    split
    · have he := List.length_erase_of_mem ‹name ∈ pending›
      have hp := List.length_pos_of_mem ‹name ∈ pending›
      have hi := ih (pending.erase name)
      simp only [List.length_cons]
      omega
    · exact ih pending

/-- The names in the queue and those that can be reached from them through pending names, the
nearest first. -/
def breadthFirst (mentions : Name → List Name) : (pending queue : List Name) → List Name
  | _, [] => []
  | pending, name :: queue =>
    let found := discover pending (mentions name)
    name :: breadthFirst mentions found.2 (queue ++ found.1)
  termination_by pending queue => pending.length + queue.length
  decreasing_by
    have := length_discover pending (mentions name)
    simp only [List.length_append, List.length_cons]
    omega

namespace Grammar

/-- The non-terminals in the bodies of the rules of a head, outside all shorthand. -/
def mentions (g : Grammar) (head : Name) : List Name :=
  (g.rulesOf head).flatMap (fun rule => rule.body.filterMap Symbol.name?)

/-- The non-terminals that can be reached from the start symbol, the nearest first. -/
def reachable (g : Grammar) : Except Misuse (List Name) := do
  g.requirePlain
  let start ← g.requireStart
  return breadthFirst g.mentions (g.names.eraseDups.erase start) [start]

def unreachable (g : Grammar) : Except Misuse (List Name) := do
  let reached ← g.reachable
  return g.heads.filter (· ∉ reached)

def unreachableRules (g : Grammar) : Except Misuse Grammar := do
  let dead ← g.unreachable
  return g.subset (g.rules.filter (·.head ∈ dead))

end Grammar

end Ebnf
