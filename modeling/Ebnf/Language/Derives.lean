import Mathlib.Logic.Relation
import Ebnf.Grammar.Basic

/-! Sentential forms. A step puts the body of a rule in the place of its head somewhere in a
sentence, and a sentence derives what any number of steps lead to. ε counts as nothing, so
statements about a sentence are about what is left of it without ε. -/
namespace Ebnf

/-- What a sentence is without ε. -/
def Sentence.visible (s : Sentence) : Sentence := s.filter (· ≠ .epsilon)

namespace Grammar

/-- One step of a derivation. -/
def Step (g : Grammar) (s t : Sentence) : Prop :=
  ∃ rule ∈ g.rules, ∃ before after : Sentence,
    s = before ++ .nonTerminal rule.head :: after ∧ t = before ++ rule.body ++ after

/-- Any number of steps. -/
def Derives (g : Grammar) : Sentence → Sentence → Prop := Relation.ReflTransGen g.Step

/-- A sentence can vanish if it derives one without visible symbols. -/
def Vanishes (g : Grammar) (s : Sentence) : Prop := ∃ t, g.Derives s t ∧ t.visible = []

/-- A terminal can begin what a sentence derives. -/
def Opens (g : Grammar) (s : Sentence) (t : Terminal) : Prop :=
  ∃ u rest, g.Derives s u ∧ u.visible = .terminal t :: rest

/-- A sentence derives one in which a non-terminal stands right before what ends it, ε left
out. -/
def Precedes (g : Grammar) (s : Sentence) (name : Name) (back : Sentence) : Prop :=
  ∃ u front, g.Derives s u ∧ u.visible = front ++ .nonTerminal name :: back

/-- A non-terminal occurs in a sentence that the start symbol derives. -/
def Reaches (g : Grammar) (start name : Name) : Prop :=
  ∃ s, g.Derives [.nonTerminal start] s ∧ .nonTerminal name ∈ s

/-- A head leads to the non-terminal that one of its bodies begins with. -/
def Leads (g : Grammar) (x y : Name) : Prop :=
  ∃ rule ∈ g.rules, rule.head = x ∧ rule.lead = .nonTerminal y

/-- No head leads back to itself. -/
def Acyclic (g : Grammar) : Prop := ∀ x, ¬Relation.TransGen g.Leads x x

/-! Left recursion. A parser that works from the left has read nothing yet when all that stands
before a non-terminal has vanished, so it is not enough to look at the symbols that bodies begin
with. -/

/-- A non-terminal is left-recursive if it derives, in one step or more, a sentence in which it
comes first. -/
def LeftRecursive (g : Grammar) (name : Name) : Prop :=
  ∃ s rest, Relation.TransGen g.Step [.nonTerminal name] s ∧
    s.visible = .nonTerminal name :: rest

/-- A head leads past the beginning of one of its bodies to the non-terminal behind it, if the
beginning can vanish. -/
def LeadsPast (g : Grammar) (before : Sentence) (x y : Name) : Prop :=
  ∃ rule ∈ g.rules, rule.head = x ∧ (∃ after, rule.body = before ++ .nonTerminal y :: after) ∧
    g.Vanishes before

/-- A head leads to a non-terminal past whatever stands before it. -/
def Uncovers (g : Grammar) (x y : Name) : Prop := ∃ before, g.LeadsPast before x y

end Grammar

end Ebnf
