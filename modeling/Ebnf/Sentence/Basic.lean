import Ebnf.Symbol.Text

/-! Sentences: sequences of symbols. A sequence that was written with bars is folded into one
alternative, with a branch for each stretch between two bars, so a sentence holds no bar. -/
namespace Ebnf

/-- Cuts a sequence at its bars: the first stretch, and those that follow a bar. -/
def Item.stretches : List Item → List Symbol × List (List Symbol)
  | [] => ([], [])
  | .bar :: rest => ([], (stretches rest).1 :: (stretches rest).2)
  | .symbol s :: rest => (s :: (stretches rest).1, (stretches rest).2)

/-- A branch of an alternative; one without items stands for the empty word. -/
def Item.branch : List Item → List Item
  | [] => [.symbol .epsilon]
  | items => items

def Item.ofSymbols (symbols : List Symbol) : List Item := symbols.map .symbol

/-- A sequence of symbols. -/
abbrev Sentence := List Symbol

namespace Sentence

def ofItems (items : List Item) : Sentence :=
  match Item.stretches items with
  | (symbols, []) => symbols
  | (first, others) =>
    [.alternative (Item.branch (Item.ofSymbols first))
      (others.map (fun stretch => Item.branch (Item.ofSymbols stretch)))]

def text (s : Sentence) : String := spaced (Symbol.texts s)

/-- Leaves out every ε, or gives ε alone if nothing else is there. -/
def strip (symbols : List Symbol) : Sentence :=
  match symbols.filter (· ≠ .epsilon) with
  | [] => [.epsilon]
  | kept => kept

/-- Puts items together into one sentence without ε, or into ε alone if nothing else is there. -/
def join (items : List Item) : Sentence :=
  match items.filter (· ≠ .symbol .epsilon) with
  | [] => [.epsilon]
  | kept => ofItems kept

/-- Whether a sentence derives nothing but the empty word by itself. -/
def isEpsilon (s : Sentence) : Bool := s.all (· = .epsilon)

def hasShorthand (s : Sentence) : Bool := s.any Symbol.isShorthand

def shorthandPosition? (s : Sentence) : Option Nat := s.findIdx? Symbol.isShorthand

def positionsOf (s : Sentence) (symbol : Symbol) : List Nat :=
  (List.range s.length).filter (fun i => s[i]? = some symbol)

def leftmostName? (s : Sentence) : Option Name := s.findSome? Symbol.name?

def rightmostName? (s : Sentence) : Option Name := s.reverse.findSome? Symbol.name?

def leftmostTerminal? (s : Sentence) : Option Terminal := s.findSome? Symbol.terminal?

def rightmostTerminal? (s : Sentence) : Option Terminal := s.reverse.findSome? Symbol.terminal?

end Sentence

end Ebnf
