import Ebnf.Symbol.Basic

/-! How symbols are written: one blank between the parts of a sequence and on the inner side
of every bracket, and alternatives with bars between them. -/
namespace Ebnf

def Bracket.signs : Bracket → String × String
  | .group => ("(", ")")
  | .option => ("[", "]")
  | .repetition => ("\x7b", "\x7d")

/-- Parts of a sequence with a blank between each two. -/
def spaced (parts : List String) : String := " ".intercalate parts

mutual

def Symbol.text : Symbol → String
  | .terminal t => t.text
  | .nonTerminal name => name.text
  | .epsilon => emptyWordSign
  | .bracket kind lead rest =>
    spaced ([kind.signs.1] ++ (lead.text :: Symbol.texts rest) ++ [kind.signs.2])
  | .alternative first others =>
    spaced ["(", " | ".intercalate (spaced (Item.texts first) :: Item.branchTexts others), ")"]

def Symbol.texts : List Symbol → List String
  | [] => []
  | s :: rest => s.text :: Symbol.texts rest

def Item.texts : List Item → List String
  | [] => []
  | .bar :: rest => "|" :: Item.texts rest
  | .symbol s :: rest => s.text :: Item.texts rest

def Item.branchTexts : List (List Item) → List String
  | [] => []
  | branch :: rest => spaced (Item.texts branch) :: Item.branchTexts rest

end

def Item.text : Item → String
  | .symbol s => s.text
  | .bar => "|"

end Ebnf
