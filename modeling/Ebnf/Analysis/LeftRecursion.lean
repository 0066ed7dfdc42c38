import Ebnf.Analysis.Reachability
import Ebnf.Failure

/-! Left recursion. A head leads to the non-terminal that one of its bodies begins with. A walk
along leading non-terminals from each head, taking no head twice, lists the paths that come back
to where they started; of several paths made of the same rules only the first is kept. -/
namespace Ebnf

/-- The paths back to the root that begin with one of the given paths. Each is given by its last
rule and the rules before it, and the walk goes on only through heads that are still pending. -/
def pathsBack (rulesOf : Name → List Rule) (root : Name) :
    (pending : List Name) → (paths : List (Rule × List Rule)) → List (List Rule)
  | _, [] => []
  | pending, (rule, before) :: paths =>
    match rule.lead.name? with
    | none => pathsBack rulesOf root pending paths
    | some next =>
      if next = root then (before ++ [rule]) :: pathsBack rulesOf root pending paths
      else if next ∈ pending then
        pathsBack rulesOf root (pending.erase next)
          ((rulesOf next).map (·, before ++ [rule]) ++ paths)
      else pathsBack rulesOf root pending paths
  termination_by pending paths => (pending.length, paths.length)
  decreasing_by
    · exact Prod.Lex.right _ (Nat.lt_succ_self _)
    · exact Prod.Lex.right _ (Nat.lt_succ_self _)
    · have he := List.length_erase_of_mem ‹next ∈ pending›
      have hp := List.length_pos_of_mem ‹next ∈ pending›
      exact Prod.Lex.left _ _ (by omega)
    · exact Prod.Lex.right _ (Nat.lt_succ_self _)

/-- Whether two paths are made of the same rules. -/
def sameRules (p q : List Rule) : Bool := p.all (· ∈ q) && q.all (· ∈ p)

/-- The cycle that a path of rules makes from its root. -/
def Cycle.ofPath (root : Name) (path : List Rule) : Except Failure Cycle := do
  let steps ← (stepsFrom [.nonTerminal root] path).mapError .misuse
  (ofSteps steps).mapError .contradiction

namespace Grammar

/-- The rules of a head that begin with the head itself. -/
def leftRecursiveRulesOf (g : Grammar) (head : Name) : List Rule :=
  (g.rulesOf head).filter Rule.isLeftRecursive

/-- The rules of a head that do not. -/
def baseRulesOf (g : Grammar) (head : Name) : List Rule :=
  (g.rulesOf head).filter (!·.isLeftRecursive)

/-- Whether a head has an alternative that does not begin with itself. -/
def hasBaseCase (g : Grammar) (head : Name) : Bool :=
  (g.rulesOf head).any (!·.isLeftRecursive)

/-- The paths from a head along leading non-terminals back to itself. -/
def pathsFrom (g : Grammar) (root : Name) : List (List Rule) :=
  pathsBack g.rulesOf root (g.heads.erase root) ((g.rulesOf root).map (·, []))

/-- The paths back to each head, each set of rules once, with the head they start from. -/
def leftRecursivePaths (g : Grammar) : List (List Rule) :=
  (g.heads.flatMap g.pathsFrom).eraseDupsBy sameRules

/-- The left recursion cycles of a grammar. One through several heads is listed once, from the
first of them. -/
def leftRecursionCycles (g : Grammar) : Except Failure (List Cycle) := do
  g.requirePlain.mapError .misuse
  g.leftRecursivePaths.mapM fun path =>
    match path with
    | [] => .error (.contradiction .noSteps)
    | rule :: _ => Cycle.ofPath rule.head path

end Grammar

end Ebnf
