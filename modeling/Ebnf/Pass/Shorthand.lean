import Ebnf.Editing.Basic
import Ebnf.Symbol.Shorthand

/-! Expansion of shorthand. The leftmost shorthand of a rule gives way to a fresh non-terminal,
whose rules say what the shorthand stands for. A round does this for every rule with shorthand,
and rounds go on until none is left. -/
namespace Ebnf

/-- Cuts a sentence at its leftmost shorthand. -/
def Sentence.splitAtShorthand? : Sentence → Option (Sentence × Symbol × Sentence)
  | [] => none
  | symbol :: rest =>
    if symbol.isShorthand then some ([], symbol, rest)
    else (splitAtShorthand? rest).map fun parts => (symbol :: parts.1, parts.2)

/-- The expansion of the leftmost shorthand of a rule. -/
structure Expansion where
  shorthand : Symbol
  fresh : Name
  rules : List Rule
  deriving DecidableEq

namespace Grammar

/-- What takes the place of a rule when its leftmost shorthand is expanded: the rule with a fresh
non-terminal instead, and the rules of that. -/
def expansionOf? (g : Grammar) (rule : Rule) : Option Expansion :=
  rule.body.splitAtShorthand?.map fun parts =>
    let fresh := g.fresh rule.head
    { shorthand := parts.2.1
      fresh
      rules :=
        .ofBody rule.head (parts.1 ++ .nonTerminal fresh :: parts.2.2) ::
          (parts.2.1.expansion fresh).map (.ofItems fresh) }

/-- The rules that take the place of one with shorthand. -/
def expandLeftmost (g : Grammar) (rule : Rule) : Except Fault (List Rule) :=
  match g.expansionOf? rule with
  | some expansion => .ok expansion.rules
  | none => .error .noShorthand

end Grammar

namespace Editing

/-- Expands the leftmost shorthand of a rule, if it has any. -/
def expandRule (rule : Rule) : Editing Unit := do
  let g ← current
  match g.expansionOf? rule with
  | none => return
  | some expansion =>
    tell (.minted expansion.fresh g)
    remark (.expanding expansion.shorthand rule expansion.fresh)
    replace rule expansion.rules
    commit .shorthand rule expansion.rules

/-- Expands the leftmost shorthand of every rule, if there is any shorthand left. -/
def expandRound : Editing Bool := do
  let g ← current
  if !g.hasShorthand then return true
  g.rules.forM expandRule
  return false

def expandShorthand (limits : Limits) : Editing Unit :=
  perform .shorthand (repeatUntil (.single .shorthand) limits.maxIterations expandRound)

end Editing

end Ebnf
