import Ebnf.Rule

/-! The audit trail: one record for each rule that a pass replaced or removed, saying why. -/
namespace Ebnf

/-- Why a rule was replaced or removed. -/
inductive Reason where
  | shorthandExpansion
  | leftRecursionExpansion
  | unreachableRemoval
  | unitExpansion
  | duplicateRemoval
  | prefixFactoring
  | startAugmentation
  deriving DecidableEq

namespace Reason

def all : List Reason :=
  [shorthandExpansion, leftRecursionExpansion, unreachableRemoval, unitExpansion,
    duplicateRemoval, prefixFactoring, startAugmentation]

def text : Reason → String
  | shorthandExpansion => "macro expansion"
  | leftRecursionExpansion => "left recursion expansion"
  | unreachableRemoval => "unreachable symbol removal"
  | unitExpansion => "unit production expansion"
  | duplicateRemoval => "duplicate production removal"
  | prefixFactoring => "common prefix factorization"
  | startAugmentation => "start augmentation"

end Reason

/-- A rule that gave way to replacements; with none of these it was removed. -/
structure Record where
  replaced : Rule
  replacements : List Rule
  reason : Reason
  deriving DecidableEq

namespace Record

def text (r : Record) : String :=
  if r.replacements = [] then s!"[{r.reason.text}] removed {r.replaced.text}"
  else s!"[{r.reason.text}] {r.replaced.text}  ==>  {added}"
where
  added : String := "; ".intercalate (r.replacements.map Rule.text)

def listText (records : List Record) : String := "\n".intercalate (records.map text)

end Record

end Ebnf
