import Ebnf.Analysis.Problems
import Ebnf.Pass.Augmentation
import Ebnf.Pass.LeftRecursion
import Ebnf.Pass.Removal
import Ebnf.Pass.SharedLeads
import Ebnf.Pass.Shorthand
import Ebnf.Pass.Units

/-! The passes as programs. Each composite runs others in turn, repeats one until it commits
nothing, or checks what came out. -/
namespace Ebnf

namespace Editing

/-- Runs a pass as a part of another and tells how many records there are of it. -/
def stage (pass : Pass) (work : Editing Unit) : Editing Unit := do
  let done ← recorded work
  remark (.stage pass done.2.length)

/-- Repeats a pass until it commits nothing. -/
def untilQuiet (pass : Pass) (limits : Limits) (work : Editing Unit) : Editing Unit :=
  repeatUntil (.pass pass) limits.maxIterations do
    let done ← recorded work
    return done.2 = []

/-- Ends a pass that normalizes a grammar as a whole by telling what it came to. -/
def finish (pass : Pass) (work : Editing Unit) : Editing Unit := do
  let done ← recorded work
  let g ← current
  remark (.finished pass done.2.length g.rules.length)

/-- Refuses a grammar with problems. -/
def rejectIfAny (problems : List Diagnostic) : Editing Unit :=
  if problems = [] then pure () else fail (.rejection problems)

/-- Takes out shorthand, unreachable rules, units and repeated rules, and then what the expansion
of units has left unreachable. -/
def clean (limits : Limits) : Editing Unit := do
  stage (.single .shorthand) (expandShorthand limits)
  stage (.single .unreachable) removeUnreachable
  stage (.single .units) (do let _ ← expandUnits limits)
  stage (.single .duplicates) removeDuplicates
  stage (.single .unreachable) removeUnreachable

/-- Takes out left recursion, shared leading symbols and unreachable rules, and refuses a grammar
that still has problems. -/
def fix (limits : Limits) : Editing Unit := do
  stage (.single .leftRecursion) (removeLeftRecursion limits)
  stage (.single .sharedLeads) (factorSharedLeads limits)
  stage (.single .unreachable) removeUnreachable
  let g ← current
  let problems ← ofExcept g.problems
  problems.forM (fun problem => remark (.problem problem))
  rejectIfAny problems

def cleanUntilQuiet (limits : Limits) : Editing Unit := untilQuiet .clean limits (clean limits)

def fixUntilQuiet (limits : Limits) : Editing Unit := untilQuiet .fix limits (fix limits)

def normalizeRound (limits : Limits) : Editing Unit := do
  stage .cleanUntilQuiet (cleanUntilQuiet limits)
  stage .fixUntilQuiet (fixUntilQuiet limits)

def normalize (limits : Limits) : Editing Unit :=
  finish .normalize (untilQuiet .normalize limits (normalizeRound limits))

/-- Takes out shorthand and augments the start symbol, and refuses a grammar with rules that
derive nothing or cannot be reached. -/
def prepareLR1 (limits : Limits) : Editing Unit :=
  finish .prepareLR1 do
    stage (.single .shorthand) (expandShorthand limits)
    stage (.single .augmentation) augmentStart
    let g ← current
    let problems ← ofExcept (g.lr1Problems.mapError .misuse)
    rejectIfAny problems

end Editing

def Pass.program (limits : Limits) : Pass → Editing Unit
  | .single .shorthand => .expandShorthand limits
  | .single .leftRecursion => .removeLeftRecursion limits
  | .single .leftRecursionRound => .leftRecursionRound
  | .single .directLeftRecursion => .removeDirectLeftRecursion limits
  | .single .sharedLeads => .factorSharedLeads limits
  | .single .unreachable => .removeUnreachable
  | .single .units => do let _ ← Editing.expandUnits limits
  | .single .duplicates => .removeDuplicates
  | .single .augmentation => .augmentStart
  | .clean => .clean limits
  | .cleanUntilQuiet => .cleanUntilQuiet limits
  | .fix => .fix limits
  | .fixUntilQuiet => .fixUntilQuiet limits
  | .normalize => .normalize limits
  | .prepareLR1 => .prepareLR1 limits

def Pass.run (pass : Pass) (limits : Limits) (g : Grammar) : Run Unit := pass.program limits g

end Ebnf
