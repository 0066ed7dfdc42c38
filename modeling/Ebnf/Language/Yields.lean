import Ebnf.Grammar.Basic

/-! The language of a grammar, shorthand included. A sentence yields words of terminals: a
non-terminal yields what the body of one of its rules yields, a group its contents, an option its
contents or nothing, a repetition its contents any number of times, and an alternative what one of
its branches yields, bars in a branch separating further alternatives. -/
namespace Ebnf

/-- The sentences between the bars of a branch. -/
def Item.choices (branch : List Item) : List Sentence :=
  (Item.stretches branch).1 :: (Item.stretches branch).2

/-- `g.Yields s w` says that the sentence `s` can be read as the word `w`. -/
inductive Grammar.Yields (g : Grammar) : Sentence → List Terminal → Prop where
  | nil : g.Yields [] []
  | terminal {t rest w} (tail : g.Yields rest w) : g.Yields (.terminal t :: rest) (t :: w)
  | epsilon {rest w} (tail : g.Yields rest w) : g.Yields (.epsilon :: rest) w
  | nonTerminal {rule : Rule} {rest u w} (member : rule ∈ g.rules) (body : g.Yields rule.body u)
      (tail : g.Yields rest w) : g.Yields (.nonTerminal rule.head :: rest) (u ++ w)
  | group {lead inner rest u w} (body : g.Yields (lead :: inner) u) (tail : g.Yields rest w) :
      g.Yields (.bracket .group lead inner :: rest) (u ++ w)
  | option {lead inner rest u w} (body : g.Yields (lead :: inner) u) (tail : g.Yields rest w) :
      g.Yields (.bracket .option lead inner :: rest) (u ++ w)
  | optionOmitted {lead inner rest w} (tail : g.Yields rest w) :
      g.Yields (.bracket .option lead inner :: rest) w
  | repetition {lead inner rest u w} (body : g.Yields (lead :: inner) u)
      (tail : g.Yields (.bracket .repetition lead inner :: rest) w) :
      g.Yields (.bracket .repetition lead inner :: rest) (u ++ w)
  | repetitionEnded {lead inner rest w} (tail : g.Yields rest w) :
      g.Yields (.bracket .repetition lead inner :: rest) w
  | alternative {first others branch choice rest u w} (listed : branch ∈ first :: others)
      (chosen : choice ∈ Item.choices branch) (body : g.Yields choice u)
      (tail : g.Yields rest w) : g.Yields (.alternative first others :: rest) (u ++ w)

namespace Grammar

/-- The words that a non-terminal yields. -/
def Spells (g : Grammar) (name : Name) (w : List Terminal) : Prop :=
  g.Yields [.nonTerminal name] w

/-- The words of the language: those that the start symbol yields. -/
def Generates (g : Grammar) (w : List Terminal) : Prop :=
  ∃ start, g.start = some start ∧ g.Spells start w

/-- A grammar is closed if its start symbol and every name in its rules heads a rule. -/
structure Closed (g : Grammar) : Prop where
  start : ∃ start, g.start = some start ∧ start ∈ g.heads
  names : ∀ name ∈ g.names, name ∈ g.heads

end Grammar

end Ebnf
