import Ebnf.Editing.Basic

/-! Augmentation of the start symbol: a fresh start symbol with a single rule, whose body is the
old one, so that reducing by that rule means accepting the input. -/
namespace Ebnf.Editing

/-- Puts a rule for a fresh start symbol in front, unless the one there is heads a single unit rule
or there are no rules. The rule that is replaced is the first of the start symbol, which has to be
there. -/
def augment : Editing Unit := do
  let g ← current
  if g.rules = [] then return
  let start ← ofExcept (g.requireStart.mapError .misuse)
  match g.rulesOf start with
  | [] => fail (.fault .indexOutOfRange)
  | rule :: others =>
    if others = [] ∧ rule.isUnit then remark (.augmentedAlready start)
    else
      let fresh := g.fresh start
      let augmented : Rule := ⟨fresh, .nonTerminal start, []⟩
      tell (.minted fresh g)
      edit (fun g => ⟨augmented :: g.rules, some fresh⟩)
      commit .augmentation rule [augmented, rule]

/-- Gives a grammar a fresh start symbol, unless the one it has heads a single unit rule. -/
def augmentStart : Editing Unit := perform .augmentation augment

end Ebnf.Editing
