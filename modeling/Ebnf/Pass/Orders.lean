import Mathlib.Computability.Language
import Ebnf.Pass.Program

/-! The passes told apart into the transformations they are made of. What a composite pass does
comes to running transformations one after the other, and it is a matter of its make-up in which
orders it may run them. -/
namespace Ebnf

open Computability

/-- `InTurn limits g kinds records g'` says that the transformations succeed when they are run one
after the other with the same limits, that they lead from `g` to `g'`, and that the records are
those of the first, then those of the second, and so on. -/
inductive InTurn (limits : Limits) :
    Grammar → List Transformation → List Record → Grammar → Prop where
  | nil (g) : InTurn limits g [] [] g
  | cons {g kind kinds records g'} (ended : ((Pass.single kind).run limits g).outcome = .ok ())
      (rest : InTurn limits ((Pass.single kind).run limits g).grammar kinds records g') :
      InTurn limits g (kind :: kinds) (((Pass.single kind).run limits g).records ++ records) g'

/-- One round of cleaning. -/
def Pass.cleaning : Language Transformation :=
  {[.shorthand, .unreachable, .units, .duplicates, .unreachable]}

/-- One round of fixing. -/
def Pass.fixing : Language Transformation := {[.leftRecursion, .sharedLeads, .unreachable]}

/-- The orders in which a pass may run transformations. What is repeated until it commits nothing is
run at least once. -/
def Pass.orders : Pass → Language Transformation
  | .single kind => {[kind]}
  | .clean => cleaning
  | .cleanUntilQuiet => cleaning * cleaning∗
  | .fix => fixing
  | .fixUntilQuiet => fixing * fixing∗
  | .normalize =>
    let round := (cleaning * cleaning∗) * (fixing * fixing∗)
    round * round∗
  | .prepareLR1 => {[.shorthand, .augmentation]}

end Ebnf
