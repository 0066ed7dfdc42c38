import Ebnf.Analysis.LeftRecursion
import Ebnf.Editing.Basic

/-! Removal of left recursion. Where a head begins its own alternatives, as in `A → A α` beside
`A → β`, the rules become `A → β A′`, `A′ → α A′` and `A′ → ε`. A cycle through several heads is
shortened by substituting the alternatives of its root into the rule that closes it, until the
cycle is a direct one. Heads without any other alternative derive nothing and are left alone. -/
namespace Ebnf

/-- The alternatives of a head that has direct left recursion: those that do not begin with the
head, and those that do and have something behind it. -/
structure DirectRecursion where
  base : List Rule
  recursive : List Rule

namespace DirectRecursion

/-- An alternative, continued by the fresh non-terminal. -/
def closing (fresh : Name) (rule : Rule) : Rule :=
  .ofBody rule.head (Sentence.strip (rule.body ++ [.nonTerminal fresh]))

/-- What stood behind the head, as a rule of the fresh non-terminal that goes on with it. -/
def continuing (fresh : Name) (rule : Rule) : Rule :=
  .ofBody fresh (Sentence.strip (rule.rest ++ [.nonTerminal fresh]))

/-- The rule by which the fresh non-terminal ends. -/
def ending (fresh : Name) : Rule := ⟨fresh, .epsilon, []⟩

/-- The rules that take the place of those of the head. -/
def rules (d : DirectRecursion) (fresh : Name) : List Rule :=
  d.base.map (closing fresh) ++ d.recursive.map (continuing fresh) ++ [ending fresh]

/-- Each rule with what it is replaced by; the last recursive one also accounts for the rule that
ends the recursion. -/
def replacements (d : DirectRecursion) (fresh : Name) : List (Rule × List Rule) :=
  d.base.map (fun rule => (rule, [closing fresh rule])) ++
    d.recursive.dropLast.map (fun rule => (rule, [continuing fresh rule])) ++
    (d.recursive.getLast?.map (fun rule => (rule, [continuing fresh rule, ending fresh]))).toList

end DirectRecursion

namespace Editing

/-- Replaces the rules of a head that has both directly left-recursive alternatives and others.
Rules that say no more than `A → A` are dropped; if these are all, nothing else changes. -/
def removeDirect (kind : Transformation) (head : Name) (base recursive : List Rule) :
    Editing Unit := do
  let g ← current
  let position := g.rules.findIdx (·.head = head)
  edit (·.retain (· ≠ head))
  (recursive.filter (·.rest = [])).forM (commit kind · [])
  let parts : DirectRecursion := ⟨base, recursive.filter (·.rest ≠ [])⟩
  if parts.recursive = [] then
    edit (·.insertAt position base)
  else
    let others ← current
    let fresh := others.fresh head
    tell (.minted fresh g)
    (parts.replacements fresh).forM fun entry => commit kind entry.1 entry.2
    edit (·.insertAt position (parts.rules fresh))
    remark (.directRemoved head fresh)

/-- Removes the direct left recursion of a head. One with no other alternative is left alone, or
is a contradiction where the caller does not allow for it. -/
def eliminateDirect (kind : Transformation) (allowUnrealizable : Bool) (head : Name) :
    Editing Unit := do
  let g ← current
  let recursive := g.leftRecursiveRulesOf head
  let base := g.baseRulesOf head
  if recursive = [] then return
  else if base ≠ [] then removeDirect kind head base recursive
  else if allowUnrealizable then remark (.onlyLeftRecursive head)
  else fail (.contradiction (.onlyLeftRecursive head))

/-- Removes the direct left recursion of every head there is, once. -/
def eliminateDirectOnce (kind : Transformation) (allowUnrealizable : Bool) : Editing Unit := do
  let g ← current
  g.heads.forM (eliminateDirect kind allowUnrealizable)

/-- One round of direct left recursion removal. -/
def leftRecursionRound : Editing Unit :=
  perform .leftRecursionRound (eliminateDirectOnce .leftRecursionRound false)

/-- Treats every head once, if one with another alternative has direct left recursion. -/
def directRound : Editing Bool := do
  let g ← current
  if g.rules.any (fun rule => rule.isLeftRecursive && g.hasBaseCase rule.head) then
    eliminateDirectOnce .directLeftRecursion true
    return false
  else return true

/-- Removes direct left recursion until only heads without another alternative have it. -/
def removeDirectLeftRecursion (limits : Limits) : Editing Unit :=
  perform .directLeftRecursion
    (repeatUntil (.single .directLeftRecursion) limits.maxIterations directRound)

/-- Shortens a cycle by a step: in the rule that closes it, the root gives way to each of its
alternatives. It is a contradiction if the rule does not begin with the root, or if the root has no
alternatives. -/
def substitute (cycle : Cycle) : Editing Unit := do
  let g ← current
  let closing := cycle.last.rule
  if closing.lead ≠ .nonTerminal cycle.root then
    fail (.contradiction (.notClosing closing cycle.root))
  else if g.rulesOf cycle.root = [] then
    fail (.contradiction (.noAlternatives cycle.root))
  else
    let replacements := ((g.rulesOf cycle.root).map fun alternative =>
      Rule.ofBody closing.head (Sentence.strip (alternative.body ++ closing.rest))).eraseDups
    replace closing replacements
    commit .leftRecursion closing replacements
    remark (.substituted cycle.root closing)

/-- Ends a pass whose grammar has grown beyond a limit. -/
def checkSize (limit : Document) : Editing Unit := do
  let g ← current
  match limit.exceededBy? g.rules.length with
  | some true => fail (.divergence (.single .leftRecursion) limit .productions)
  | some false => return
  | none => fail (.fault .unusableLimit)

/-- Takes one step against some cycles: the first that is direct is removed, and if none is, the
first is shortened. -/
def breakCycle (first : Cycle) (others : List Cycle) : Editing Unit :=
  match (first :: others).find? Cycle.isDirect with
  | some cycle => eliminateDirect .leftRecursion true cycle.root
  | none => substitute first

/-- Takes such a step against the cycles whose root has another alternative. -/
def cycleRound (largest : Document) : Editing Bool := do
  let g ← current
  let cycles ← ofExcept g.leftRecursionCycles
  match cycles.filter (fun cycle => g.hasBaseCase cycle.root) with
  | [] => return true
  | first :: others =>
    breakCycle first others
    checkSize largest
    return false

/-- Takes such steps until there is no such cycle. Substitution can go on forever where a symbol
that derives the empty word hides a recursion, so besides the number of rounds the size of the
grammar is limited. -/
def resolveCycles (limits : Limits) : Editing Unit := do
  let g ← current
  match limits.maxGrowth.times? (max g.rules.length 1) with
  | none => fail (.fault .unusableLimit)
  | some largest =>
    repeatUntil (.single .leftRecursion) limits.maxIterations (cycleRound largest)

def removeLeftRecursion (limits : Limits) : Editing Unit :=
  perform .leftRecursion (resolveCycles limits)

end Editing

end Ebnf
