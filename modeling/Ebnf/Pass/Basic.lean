import Ebnf.Record

/-! The passes by name: nine transformations that each do one thing, and six passes put together
from them. -/
namespace Ebnf

/-- A pass that makes one kind of change. `leftRecursionRound` treats every head with directly
left-recursive rules once, where `directLeftRecursion` goes on until none is left and
`leftRecursion` also resolves cycles through several heads. -/
inductive Transformation where
  | shorthand
  | leftRecursion
  | leftRecursionRound
  | directLeftRecursion
  | sharedLeads
  | unreachable
  | units
  | duplicates
  | augmentation
  deriving DecidableEq

namespace Transformation

/-- The name of a transformation in messages about its own work. -/
def title : Transformation → String
  | shorthand => "MacroExpansion"
  | leftRecursion => "LeftRecursionRemoval"
  | leftRecursionRound => "LeftFactor"
  | directLeftRecursion => "DirectLeftRecursionRemoval"
  | sharedLeads => "CommonPrefixFactorization"
  | unreachable => "UnreachableRemoval"
  | units => "UnitProductions"
  | duplicates => "DuplicateRemoval"
  | augmentation => "StartAugmentation"

/-- The reason that the records of a transformation give. -/
def reason : Transformation → Reason
  | shorthand => .shorthandExpansion
  | leftRecursion | leftRecursionRound | directLeftRecursion => .leftRecursionExpansion
  | sharedLeads => .prefixFactoring
  | unreachable => .unreachableRemoval
  | units => .unitExpansion
  | duplicates => .duplicateRemoval
  | augmentation => .startAugmentation

end Transformation

/-- A pass over a grammar. Cleaning takes out shorthand, unreachable rules, unit rules and
repeated rules; fixing takes out left recursion and shared leading symbols and then looks for
problems; normalizing does both until nothing changes. The last pass prepares a grammar for a
table generator that needs lookahead only. -/
inductive Pass where
  | single (t : Transformation)
  | clean
  | cleanUntilQuiet
  | fix
  | fixUntilQuiet
  | normalize
  | prepareLR1
  deriving DecidableEq

namespace Pass

def all : List Pass :=
  [.single .shorthand, .single .leftRecursion, .single .leftRecursionRound,
    .single .directLeftRecursion, .single .sharedLeads, .single .unreachable, .single .units,
    .single .duplicates, .single .augmentation, .clean, .cleanUntilQuiet, .fix, .fixUntilQuiet,
    .normalize, .prepareLR1]

/-- The name that a pass is asked for and reported by. -/
def title : Pass → String
  | .single .shorthand => "expand_macros"
  | .single .leftRecursion => "remove_left_recursion"
  | .single .leftRecursionRound => "left_factor"
  | .single .directLeftRecursion => "remove_direct_left_recursion"
  | .single .sharedLeads => "factor_common_prefix_productions"
  | .single .unreachable => "remove_unreachable_productions"
  | .single .units => "expand_unit_productions"
  | .single .duplicates => "remove_duplicates"
  | .single .augmentation => "augment_start"
  | .clean => "auto_clean"
  | .cleanUntilQuiet => "recursive_auto_clean"
  | .fix => "auto_fix"
  | .fixUntilQuiet => "recursive_auto_fix"
  | .normalize => "auto_transform"
  | .prepareLR1 => "auto_transform_lr1"

end Pass

/-- What is repeated until nothing changes: a transformation repeats its own step, and a composite
pass can be repeated as a whole. -/
inductive Loop where
  | single (t : Transformation)
  | pass (p : Pass)
  deriving DecidableEq

def Loop.title : Loop → String
  | .single t => t.title
  | .pass p => p.title

end Ebnf
