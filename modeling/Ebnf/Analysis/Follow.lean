import Ebnf.Analysis.First

/-! FOLLOW sets: the terminals that can come right after a non-terminal in a sentence derived
from the start symbol, the end of the input coming after the start symbol itself. -/
namespace Ebnf

/-- The terminals that can come right after a non-terminal, in order and each once. -/
structure FollowSet where
  symbol : Name
  terminals : List Terminal
  deriving DecidableEq

namespace FollowSet

def of (symbol : Name) (terminals : List Terminal) : FollowSet :=
  ⟨symbol, Terminal.listing terminals⟩

/-- The text of a set: the texts of its terminals in order. -/
def text (s : FollowSet) : String :=
  s!"FOLLOW({s.symbol.text}) = \x7b" ++
    ", ".intercalate (s.terminals.map Terminal.text).mergeSort ++ "\x7d"

end FollowSet

/-- Whether a terminal comes right after a non-terminal in a body, given the non-terminals that it
begins and those that it is known to follow: it begins what stands behind an occurrence, or what
stands there vanishes and the terminal follows the head. -/
def Sentence.follows (nullable begun followed : List Name) (head name : Name) (t : Terminal) :
    Sentence → Bool
  | [] => false
  | symbol :: rest =>
    (symbol = .nonTerminal name &&
      (begins nullable begun t rest || (head ∈ followed && vanishes nullable rest))) ||
      follows nullable begun followed head name t rest

namespace Grammar

/-- The heads that a terminal follows. The end of the input follows the start symbol. -/
def followedBy (g : Grammar) (start : Name) (b : Beginnings) (t : Terminal) : List Name :=
  let begun := b.begunBy t
  saturate
    (fun known name =>
      (name = start && t = Terminal.endOfInput) ||
        g.rules.any fun rule => rule.body.follows b.nullable begun known rule.head name t)
    g.heads []

def followSets (g : Grammar) : Except Misuse (List FollowSet) := do
  let start ← g.requireStart
  let b ← g.beginnings
  let facts := (Terminal.endOfInput :: g.terminals).eraseDups.map fun t =>
    (t, g.followedBy start b t)
  return g.heads.map fun head => .of head ((facts.filter (head ∈ ·.2)).map Prod.fst)

end Grammar

end Ebnf
