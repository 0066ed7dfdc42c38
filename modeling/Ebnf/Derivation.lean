import Ebnf.Misuse

/-! Single derivation steps: one non-terminal of a sentence gives way to the body of one of its
rules, and every ε is left out of what results. -/
namespace Ebnf

/-- The step that applies a rule at a position of the sentence before it. -/
structure Derivation where
  rule : Rule
  before : Sentence
  position : Nat
  deriving DecidableEq

namespace Derivation

def derived (d : Derivation) : Sentence :=
  Sentence.strip (d.before.take d.position ++ d.rule.body ++ d.before.drop (d.position + 1))

def text (d : Derivation) : String :=
  s!"{d.rule.text}  ({d.before.text} => {d.derived.text})"

end Derivation

namespace Sentence

/-- Puts the body of a rule in the place of its head at a position. -/
def derive (s : Sentence) (index : Int) (rule : Rule) : Except Misuse Derivation :=
  match place with
  | none => .error (.outOfRange index s)
  | some (i, symbol) =>
    if !symbol.isNonTerminal then .error (.notNonTerminal symbol i)
    else if symbol ≠ .nonTerminal rule.head then .error (.otherHead symbol i rule)
    else .ok ⟨rule, s, i⟩
where
  /-- The position, with the symbol that stands there. -/
  place : Option (Nat × Symbol) :=
    if index < 0 then none else s[index.toNat]?.map (index.toNat, ·)

/-- Applies a rule to the leftmost non-terminal. -/
def deriveLeftmost (s : Sentence) (rule : Rule) : Except Misuse Derivation :=
  match s.findIdx? Symbol.isNonTerminal with
  | some i => s.derive i rule
  | none => .error (.nothingToDerive s)

def deriveRightmost (s : Sentence) (rule : Rule) : Except Misuse Derivation :=
  match s.reverse.findIdx? Symbol.isNonTerminal with
  | some i => s.derive (s.length - 1 - i : Nat) rule
  | none => .error (.nothingToDerive s)

end Sentence

end Ebnf
