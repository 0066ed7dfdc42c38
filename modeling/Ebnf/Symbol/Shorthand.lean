import Ebnf.Misuse

/-! Making names and shorthand from what was written, and taking shorthand apart: the bodies
of the rules for a fresh non-terminal that can stand where the shorthand stood. -/
namespace Ebnf

/-- The name that a text is, which must not be empty nor the sign for the empty word. -/
def Name.ofText (text : String) : Except Misuse Name :=
  match Name.ofText? text with
  | some name => .ok name
  | none => .error (.invalidName text)

namespace Symbol

def enclose (kind : Bracket) (items : List Item) : Except Misuse Symbol :=
  match Sentence.ofItems items with
  | [] => .error (.emptyBracket kind)
  | lead :: rest => .ok (.bracket kind lead rest)

def choose : List (List Item) → Except Misuse Symbol
  | [] => .error .noBranches
  | first :: others => .ok (.alternative (Item.branch first) (others.map Item.branch))

/-- The bodies of the rules for `fresh`, the non-terminal that takes the place of a symbol.
A group stands for its contents, an option for its contents or nothing, a repetition for its
contents followed by itself or nothing, and an alternative for each of its branches. Any other
symbol stands for itself. -/
def expansion (fresh : Name) : Symbol → List (List Item)
  | .bracket .group lead rest => [Item.ofSymbols (lead :: rest)]
  | .bracket .option lead rest => [Item.ofSymbols (lead :: rest), [.symbol .epsilon]]
  | .bracket .repetition lead rest =>
    [Item.ofSymbols (lead :: rest ++ [.nonTerminal fresh]), [.symbol .epsilon]]
  | .alternative first others => first :: others
  | s => [[.symbol s]]

end Symbol

end Ebnf
