import Ebnf.Derivation
import Ebnf.Language.Derives

/-! Derivations that follow a strategy. A rule can be applied wherever its head stands, and a
strategy says where: at the leftmost non-terminal, or at the rightmost one. -/
namespace Ebnf

/-- A strategy applies a rule at a place of its own choice, or refuses it. -/
abbrev Strategy : Type := Sentence → Rule → Except Misuse Derivation

/-- Applies rules in turn, each to what the ones before it have left. None may be refused. -/
def Sentence.deriveBy (strategy : Strategy) : Sentence → List Rule → Except Misuse Sentence
  | s, [] => .ok s
  | s, rule :: rules => do
    let step ← strategy s rule
    deriveBy strategy step.derived rules

namespace Grammar

/-- A word can be derived from a sentence, the rules being applied anywhere in any order. -/
def DerivesWord (g : Grammar) (s : Sentence) (w : List Terminal) : Prop :=
  ∃ t, g.Derives s t ∧ t.visible = w.map .terminal

/-- Rules of the grammar, applied in turn by a strategy, lead from one sentence to another, from
which ε is left out. -/
def LeadsBy (g : Grammar) (strategy : Strategy) (s t : Sentence) : Prop :=
  ∃ rules u, (∀ rule ∈ rules, rule ∈ g.rules) ∧ s.deriveBy strategy rules = .ok u ∧ u.visible = t

end Grammar

end Ebnf
